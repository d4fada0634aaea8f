import PennOs.Kernel.ChildLists

set_option autoImplicit false

/- Who is a child of whom, in every run: creation, the child limit and the loss of a parent. -/
namespace PennOs.Kernel

variable {k k' k'' base : KernelState} {ptr self target : PcbPtr} {priority : Level}
  {pcb pcb' : Pcb} {pid : Int} {event : Event} {events : List Event} {born : PcbPtr → Nat}

/-- The PCB whose process gets a child. -/
def Event.creator : Event → Option PcbPtr
  | .spawnShell self | .procCreate self _ => some self
  | _ => none

/-- What an event does to families. -/
inductive KinStep (k : KernelState) (event : Event) (k' : KernelState) : Prop
  | quiet (none : event.creator = none) (winnows : Winnows k k')
  | adopts (self : PcbPtr) (pcb : Pcb) (priority : Level) (pid : Int) (base : KernelState)
      (creates : event.creator = some self) (found : k.pcbs self = some pcb)
      (live : pcb.thrd = .live) (unused : Unused k pid) (table : Table base)
      (pcbs : base.pcbs = (k.adopt self pcb priority pid).pcbs)
      (nextPtr : base.nextPtr = k.nextPtr + 1) (same : SameKin base k')
  | disowns (target : PcbPtr) (pcb : Pcb) (none : event.creator = none)
      (found : k.pcbs target = some pcb) (table : Table k') (disowns : Disowns k target pcb k')

/-- A parent that is there lists its child, unless it is init; a dead one has no list. -/
structure Families (k : KernelState) : Prop where
  table : Table k
  roster : Roster k
  child : ∀ ptr pcb, k.pcbs ptr = some pcb → pcb.ppid = 0 ∨ pcb.ppid = 1 ∨
    ∃ parent parentPcb, k.pcbs parent = some parentPcb ∧ parentPcb.pid = pcb.ppid ∧
      pcb.pid ∈ parentPcb.childPids
  gone : ∀ ptr pcb, k.pcbs ptr = some pcb → pcb.Dead → pcb.thrd = .ended ∧ pcb.childPids = []

section Steps

theorem quiet_kinStep {p : KernelM Unit} (none : event.creator = none)
    (same : Prog.Keeps SameKin p) (step : p k = some ((), k')) : KinStep k event k' :=
  .quiet none (same _ _ _ step).winnows

theorem procCreate_kinStep (families : Families k) (step : Step k (.procCreate self priority) k') :
    KinStep k (.procCreate self priority) k' := by
  obtain ⟨new, k₁, made, rest⟩ := Prog.bind_inv step
  simp only [Prog.pure_run, Option.some.injEq, Prod.mk.injEq, true_and] at rest
  subst rest
  obtain ⟨pcb, pid, found, live, _, _, chosen, _, rfl⟩ := kProcCreate_inv families.roster made
  obtain ⟨_, unused, above⟩ := getNextFreePid_unused families.table chosen
  have table : Table (k.adopt self pcb priority pid) :=
    adopt_table families.table found unused fun isShell => by
      have small : shellPid = 2 := rfl
      omega
  exact .adopts self pcb priority pid _ rfl found live unused table rfl rfl (Std.Refl.refl _)

theorem spawnShell_kinStep (families : Families k) (step : Step k (.spawnShell self) k') :
    KinStep k (.spawnShell self) k' := by
  obtain ⟨pcb, found, live, notSpawned, same⟩ := spawnShell_inv families.roster step
  have unused : Unused k shellPid := by
    intro ptr other here isShell
    have spawned := families.table.shell ptr other here isShell
    rw [notSpawned] at spawned
    cases spawned
  have table₁ : Table k.setShellSpawned :=
    ⟨families.table.bounded, families.table.listed, families.table.allocated,
      families.table.distinct, families.table.pids, fun _ _ _ _ => rfl⟩
  have table : Table (k.setShellSpawned.adopt self pcb 0 shellPid) :=
    adopt_table table₁ found unused fun _ => rfl
  exact .adopts self pcb 0 shellPid _ rfl found live unused table rfl rfl same

theorem event_kinStep (families : Families k) (step : Step k event k') : KinStep k event k' := by
  have ignoring : ∀ {α : Type} {p : KernelM α}, Prog.Keeps SameKin p →
      Prog.Keeps SameKin (do let _ ← p) := fun same => .bind same fun _ => .pure _
  cases event with
  | spawnShell self => exact spawnShell_kinStep families step
  | procCreate self priority => exact procCreate_kinStep families step
  | shellReturned self => exact quiet_kinStep rfl shellReturned_sameKin step
  | initResumed self shell => exact quiet_kinStep rfl initResumed_sameKin step
  | setRoutineAndRun self proc => exact quiet_kinStep rfl setRoutineAndRun_sameKin step
  | kill self pid sig =>
      rcases kKill_disowns families.table step with
        ⟨target, pcb, found, _, _, _, _, _, disowns⟩ | ⟨same, _⟩
      · exact .disowns target pcb rfl found
          (families.table.of_same (kKill_quiet _ _ _ step).toSamePids) disowns
      · exact .quiet rfl same.winnows
  | selfStopResumed self => exact quiet_kinStep rfl selfStopResumed_sameKin step
  | exit self =>
      obtain ⟨pcb, found, _, disowns⟩ := kExit_disowns families.table step
      exact .disowns self pcb rfl found
        (families.table.of_same (kExit_quiet _ _ _ step).toSamePids) disowns
  | sleep self length => exact quiet_kinStep rfl kSleep_sameKin step
  | sleepResumed self => exact quiet_kinStep rfl kSleepResumed_sameKin step
  | waitpid self pid nohang => exact quiet_kinStep rfl (ignoring kWaitpid_sameKin) step
  | waitpidJoined self child => exact quiet_kinStep rfl kWaitpidJoined_sameKin step
  | waitpidReap self child => exact quiet_kinStep rfl (ignoring kWaitpidReap_sameKin) step
  | nice self pid newPriority => exact quiet_kinStep rfl (ignoring kNice_sameKin) step
  | maintenancePass => exact .quiet rfl (maintenancePass_winnows _ _ _ step)
  | pick level => exact quiet_kinStep rfl pick_sameKin step
  | idleTick => exact quiet_kinStep rfl idleTick_sameKin step
  | quantumEnd => exact .quiet rfl (quantumEnd_winnows _ _ _ step)

end Steps

section Invariant

theorem boot_families : Families .boot := by
  have only : ∀ ptr pcb, KernelState.boot.pcbs ptr = some pcb → pcb = initPcb := by
    intro ptr pcb found
    rw [boot_pcbs] at found
    split at found
    · exact (Option.some.inj found).symm
    · cases found
  refine ⟨(boot_orderly).table, boot_roster, fun ptr pcb found => ?_, fun ptr pcb found dead => ?_⟩
  · exact .inl (congrArg Pcb.ppid (only ptr pcb found))
  · rw [only ptr pcb found] at dead
    exact absurd dead (not_or.mpr ⟨nofun, nofun⟩)

theorem families_winnows (families : Families k) (winnows : Winnows k k') (roster : Roster k') :
    Families k' := by
  refine ⟨winnows.table families.table, roster, fun ptr pcb' found => ?_, fun ptr pcb' found dead => ?_⟩
  · obtain ⟨pcb, before, alike⟩ := winnows.was ptr pcb' found
    rw [alike.ppid, alike.pid]
    rcases families.child ptr pcb before with zero | one | ⟨parent, parentPcb, here, isParent, listed⟩
    · exact .inl zero
    · exact .inr (.inl one)
    · rcases winnows.kept parent parentPcb here with ⟨parentPcb', after, alike'⟩ | dead
      · exact .inr (.inr ⟨parent, parentPcb', after, alike'.pid.trans isParent,
          alike'.childPids.symm ▸ listed⟩)
      · rw [(families.gone parent parentPcb here dead).2] at listed
        exact absurd listed List.not_mem_nil
  · obtain ⟨pcb, before, alike⟩ := winnows.was ptr pcb' found
    obtain ⟨ended, childless⟩ := families.gone ptr pcb before (alike.dead dead)
    exact ⟨alike.ended ended, alike.childPids.trans childless⟩

theorem families_adopts (families : Families k) (found : k.pcbs self = some pcb)
    (live : pcb.thrd = .live) (table : Table base) (roster : Roster base)
    (pcbs : base.pcbs = (k.adopt self pcb priority pid).pcbs) : Families base := by
  have apart : self ≠ k.nextPtr := Nat.ne_of_lt (families.table.bounded self pcb found)
  have parent : base.pcbs self = some { pcb with childPids := pcb.childPids ++ [pid] } := by
    rw [pcbs, adopt_self]
  -- a PCB that existed is as it was, up to a longer list
  have longer : ∀ ptr before, k.pcbs ptr = some before → ∃ after, base.pcbs ptr = some after ∧
      after.pid = before.pid ∧ ∀ child ∈ before.childPids, child ∈ after.childPids := by
    intro ptr before here
    by_cases isSelf : ptr = self
    · subst isSelf
      obtain rfl := Option.some.inj (found.symm.trans here)
      exact ⟨_, parent, rfl, fun child member => List.mem_append_left _ member⟩
    · have old := Nat.ne_of_lt (families.table.bounded ptr before here)
      exact ⟨before, by rw [pcbs, adopt_old isSelf old, here], rfl, fun _ => id⟩
  have still : ∀ ptr before, k.pcbs ptr = some before → before.ppid = 0 ∨ before.ppid = 1 ∨
      ∃ parent parentPcb, base.pcbs parent = some parentPcb ∧ parentPcb.pid = before.ppid ∧
        before.pid ∈ parentPcb.childPids := by
    intro ptr before here
    rcases families.child ptr before here with zero | one | ⟨other, otherPcb, was, isParent, listed⟩
    · exact .inl zero
    · exact .inr (.inl one)
    · obtain ⟨after, here', same, kept⟩ := longer other otherPcb was
      exact .inr (.inr ⟨other, after, here', same.trans isParent, kept _ listed⟩)
  refine ⟨table, roster, fun ptr pcb' here => ?_, fun ptr pcb' here dead => ?_⟩
  · rw [pcbs, adopt_pcbs] at here
    split at here
    · cases here
      exact still self pcb found
    · split at here
      · cases here
        exact .inr (.inr ⟨self, _, parent, rfl, List.mem_append_right _ (List.mem_singleton_self _)⟩)
      · exact still ptr pcb' here
  · rw [pcbs, adopt_pcbs] at here
    split at here
    · cases here
      have gone := (families.gone self pcb found dead).1
      rw [live] at gone
      cases gone
    · split at here
      · cases here
        exact absurd dead (not_or.mpr ⟨nofun, nofun⟩)
      · exact families.gone ptr pcb' here dead

theorem families_disowns (families : Families k) (found : k.pcbs target = some pcb)
    (table : Table k') (roster : Roster k') (disowns : Disowns k target pcb k') : Families k' := by
  obtain ⟨own, ownFound, ownPid, ownList, ended, ownParent⟩ := disowns.ended
  have others : ∀ ptr after, ptr ≠ target → k'.pcbs ptr = some after →
      ∃ before, k.pcbs ptr = some before ∧
        after = { before with ppid := if before.pid ∈ pcb.childPids then 1 else before.ppid } := by
    intro ptr after apart here
    rw [disowns.others ptr apart] at here
    obtain ⟨before, was, same⟩ := Option.map_eq_some_iff.mp here
    exact ⟨before, was, same.symm⟩
  -- a parent that is not init any more is not `target`
  have parents : ∀ ptr before, k.pcbs ptr = some before → before.pid ∉ pcb.childPids →
      before.ppid = 0 ∨ before.ppid = 1 ∨ ∃ parent parentPcb, k'.pcbs parent = some parentPcb ∧
        parentPcb.pid = before.ppid ∧ before.pid ∈ parentPcb.childPids := by
    intro ptr before was unlisted
    rcases families.child ptr before was with zero | one | ⟨parent, parentPcb, here, isParent, listed⟩
    · exact .inl zero
    · exact .inr (.inl one)
    · have apart : parent ≠ target := by
        rintro rfl
        obtain rfl := Option.some.inj (found.symm.trans here)
        exact unlisted listed
      have after := (disowns.others parent apart).trans (congrArg (Option.map _) here)
      exact .inr (.inr ⟨parent, _, after, isParent, listed⟩)
  refine ⟨table, roster, fun ptr after here => ?_, fun ptr after here dead => ?_⟩
  · by_cases isTarget : ptr = target
    · subst isTarget
      obtain rfl := Option.some.inj (ownFound.symm.trans here)
      by_cases listed : pcb.pid ∈ pcb.childPids
      · exact .inr (.inl (ownParent.trans (if_pos listed)))
      · rw [ownParent, if_neg listed, ownPid]
        exact parents ptr pcb found listed
    · obtain ⟨before, was, rfl⟩ := others ptr after isTarget here
      by_cases listed : before.pid ∈ pcb.childPids
      · exact .inr (.inl (if_pos listed))
      · show (if _ then _ else _) = _ ∨ (if _ then _ else _) = _ ∨ _
        rw [if_neg listed]
        exact parents ptr before was listed
  · by_cases isTarget : ptr = target
    · subst isTarget
      obtain rfl := Option.some.inj (ownFound.symm.trans here)
      exact ⟨ended, ownList⟩
    · obtain ⟨before, was, rfl⟩ := others ptr after isTarget here
      exact families.gone ptr before was dead

theorem event_families (families : Families k) (step : Step k event k') : Families k' := by
  have roster' := event_enrols event _ _ _ step families.roster
  rcases event_kinStep families step with ⟨_, winnows⟩ |
    ⟨self, pcb, priority, pid, base, _, found, live, _, table, pcbs, _, same⟩ |
    ⟨target, pcb, _, found, table, disowns⟩
  · exact families_winnows families winnows roster'
  · have rosterBase : Roster base := by
      refine ⟨table.bounded, fun ptr after here => ?_, table.allocated, table.distinct⟩
      obtain ⟨after', here', alike⟩ := same.kept ptr after here
      exact alike.pid ▸ roster'.positive ptr after' here'
    exact families_winnows (families_adopts families found live table rosterBase pcbs) same.winnows
      roster'
  · exact families_disowns families found table roster' disowns

theorem run_families {sound : KernelState → Event → Prop} (run : Run sound k k')
    (families : Families k) : Families k' := by
  induction run with
  | refl => exact families
  | step _ _ step ih => exact event_families ih step

end Invariant

section Reparenting

/-- `ppid` at all addresses. -/
def KernelState.ppidAt (k : KernelState) (ptr : PcbPtr) : Option Int := (k.pcbs ptr).map (·.ppid)

/-- The children of the process `pid`, and no others, get init as their parent. -/
def ReparentsOwn (k : KernelState) (pid : Int) (k' : KernelState) : Prop :=
  ∀ ptr, k'.ppidAt ptr = (k.ppidAt ptr).map fun ppid => if ppid = pid then 1 else ppid

/-- The process of `target` exits or is sent `P_SIGTERM`. -/
def Event.Ends (target : PcbPtr) (pid : Int) : Event → Prop
  | .exit self => self = target
  | .kill _ pid' sig => pid' = pid ∧ sig = pSigterm
  | _ => False

/-- The PIDs on the list of `pcb` are those of its own children or of children of init. -/
def ListsOwn (k : KernelState) (pcb : Pcb) : Prop :=
  ∀ ptr other, k.pcbs ptr = some other → other.pid ∈ pcb.childPids →
    other.ppid = pcb.pid ∨ other.ppid = 1

/-- A process that terminates itself keeps its children, so it has none; otherwise it lists
only its own. -/
def KnowsChildren (k : KernelState) (target : PcbPtr) (pcb : Pcb) : Event → Prop
  | .kill self _ _ =>
      if self = target then ∀ ptr other, k.pcbs ptr = some other → other.ppid = pcb.pid → pcb.pid = 1
      else ListsOwn k pcb
  | _ => ListsOwn k pcb

/-- Without a change the children of a process are those of init. -/
theorem sameKin_reparents (same : SameKin k k') : ReparentsOwn k pid k' ↔
    ∀ ptr other, k.pcbs ptr = some other → other.ppid = pid → pid = 1 := by
  have kept : ∀ ptr, k'.ppidAt ptr = k.ppidAt ptr := by
    intro ptr
    rw [KernelState.ppidAt, KernelState.ppidAt]
    cases found : k.pcbs ptr with
    | some pcb =>
        obtain ⟨pcb', after, alike⟩ := same.kept ptr pcb found
        rw [after, Option.map_some, Option.map_some, alike.ppid]
    | none =>
        cases found' : k'.pcbs ptr with
        | none => rfl
        | some pcb' =>
            obtain ⟨pcb, before, _⟩ := same.was ptr pcb' found'
            rw [found] at before
            cases before
  constructor
  · intro reparents ptr other found isChild
    have after := reparents ptr
    rw [kept ptr, KernelState.ppidAt, found, Option.map_some, Option.map_some, if_pos isChild,
      Option.some.injEq] at after
    exact isChild.symm.trans after
  · intro onlyInit ptr
    rw [kept ptr, KernelState.ppidAt]
    cases found : k.pcbs ptr with
    | none => rfl
    | some pcb =>
        rw [Option.map_some, Option.map_some, Option.some.injEq]
        by_cases isChild : pcb.ppid = pid
        · rw [if_pos isChild, isChild]
          exact onlyInit ptr pcb found isChild
        · rw [if_neg isChild]

theorem disowns_reparents (families : Families k) (found : k.pcbs target = some pcb)
    (disowns : Disowns k target pcb k') : ReparentsOwn k pcb.pid k' ↔ ListsOwn k pcb := by
  have after : ∀ ptr, k'.ppidAt ptr = (k.pcbs ptr).map fun other =>
      if other.pid ∈ pcb.childPids then 1 else other.ppid := by
    intro ptr
    by_cases isTarget : ptr = target
    · obtain ⟨own, ownFound, _, _, _, ownParent⟩ := disowns.ended
      rw [isTarget, KernelState.ppidAt, ownFound, found, Option.map_some, Option.map_some, ownParent]
    · rw [KernelState.ppidAt, disowns.others ptr isTarget, Option.map_map]
      rfl
  constructor
  · intro reparents ptr other here listed
    have parent := reparents ptr
    rw [after, KernelState.ppidAt, here, Option.map_some, Option.map_some, Option.map_some,
      if_pos listed, Option.some.injEq] at parent
    by_cases isChild : other.ppid = pcb.pid
    · exact .inl isChild
    · rw [if_neg isChild] at parent
      exact .inr parent.symm
  · intro own ptr
    rw [after, KernelState.ppidAt]
    cases here : k.pcbs ptr with
    | none => rfl
    | some other =>
        rw [Option.map_some, Option.map_some, Option.map_some, Option.some.injEq]
        by_cases listed : other.pid ∈ pcb.childPids
        · rw [if_pos listed]
          rcases own ptr other here listed with isChild | one
          · rw [if_pos isChild]
          · rw [one, ite_self]
        · rw [if_neg listed]
          by_cases isChild : other.ppid = pcb.pid
          swap
          · rw [if_neg isChild]
          rw [if_pos isChild]
          rcases families.child ptr other here with zero | one | ⟨parent, parentPcb, was, isParent, member⟩
          · have positive := families.roster.positive target pcb found
            omega
          · exact one
          · obtain rfl := families.table.pids parent target parentPcb pcb was found
              (isParent.trans isChild)
            obtain rfl := Option.some.inj (found.symm.trans was)
            exact absurd member listed

/-- When a process ends, the parents that change are those of its children exactly if it knows
its children. -/
theorem reparents_iff {sound : KernelState → Event → Prop} (reached : Run sound .boot k)
    (found : k.pcbs target = some pcb) (ends : event.Ends target pcb.pid) (step : Step k event k') :
    ReparentsOwn k pcb.pid k' ↔ KnowsChildren k target pcb event := by
  have families := run_families reached boot_families
  cases event with
  | exit self =>
      obtain rfl : self = target := ends
      obtain ⟨pcb₁, found₁, _, disowns⟩ := kExit_disowns families.table step
      obtain rfl := Option.some.inj (found.symm.trans found₁)
      exact disowns_reparents families found disowns
  | kill self pid sig =>
      obtain ⟨rfl, rfl⟩ := ends
      rw [KnowsChildren]
      rcases kKill_disowns families.table step with
        ⟨target', pcb', found', isPid, apart, _, _, _, disowns⟩ | ⟨same, spared⟩
      · obtain rfl := families.table.pids target' target pcb' pcb found' found isPid
        obtain rfl := Option.some.inj (found.symm.trans found')
        rw [if_neg (Ne.symm apart)]
        exact disowns_reparents families found disowns
      · rw [sameKin_reparents same]
        by_cases own : self = target
        · rw [if_pos own]
        rw [if_neg own]
        have zombie := (spared target pcb found rfl rfl).resolve_left (Ne.symm own)
        have childless := (families.gone target pcb found (.inl zombie)).2
        constructor
        · intro _ ptr other _ listed
          rw [childless] at listed
          exact absurd listed List.not_mem_nil
        · intro _ ptr other here isChild
          rcases families.child ptr other here with zero | one | ⟨parent, parentPcb, was, isParent, member⟩
          · have positive := families.roster.positive target pcb found
            omega
          · omega
          · obtain rfl := families.table.pids parent target parentPcb pcb was found
              (isParent.trans isChild)
            obtain rfl := Option.some.inj (found.symm.trans was)
            rw [childless] at member
            exact absurd member List.not_mem_nil
  | _ => exact absurd ends id

/-- A process with a child. -/
def childMade : KernelState := KernelState.boot.after (startProcess ++ [.pick 1, .procCreate 2 1])

theorem reparents_iff_childMade : ReparentsOwn childMade 3 (childMade.after [.exit 2]) := by
  have reached : Run (fun _ _ => True) .boot childMade := .after_sound _ (by decide +kernel)
  have roster := run_roster reached boot_roster
  have step : Step childMade (.exit 2) (childMade.after [.exit 2]) := step_after (by decide +kernel)
  have small : ∀ ptr < childMade.nextPtr, ∀ other ∈ childMade.pcbs ptr, other.pid = 4 →
      other.ppid = 3 := by decide +kernel
  obtain ⟨pcb, found, isPid, isList⟩ : ∃ pcb, childMade.pcbs 2 = some pcb ∧ pcb.pid = 3 ∧
      pcb.childPids = [4] := by
    have here : (childMade.pcbs 2).map (fun pcb => (pcb.pid, pcb.childPids)) = some (3, [4]) := by
      decide +kernel
    obtain ⟨pcb, found, same⟩ := Option.map_eq_some_iff.mp here
    exact ⟨pcb, found, congrArg Prod.fst same, congrArg Prod.snd same⟩
  have ends : Event.Ends 2 pcb.pid (.exit 2) := rfl
  rw [← isPid]
  refine (reparents_iff reached found ends step).mpr fun ptr other here listed => .inl ?_
  rw [isList] at listed
  rw [isPid]
  exact small ptr (roster.bounded ptr other here) other here (List.mem_singleton.mp listed)

/-- The first child is reaped, and its PID becomes that of a child of the second one. -/
def recyclePid : List Event :=
  [.pick 1, .procCreate 2 1, .setRoutineAndRun 2 3, .procCreate 2 1, .setRoutineAndRun 2 4,
    .quantumEnd, .maintenancePass, .pick 1, .exit 3, .quantumEnd, .maintenancePass, .pick 1,
    .quantumEnd, .maintenancePass, .pick 1, .waitpid 2 4 false, .waitpidJoined 2 3,
    .waitpidReap 2 3, .quantumEnd, .maintenancePass, .pick 1, .procCreate 4 1]

def pidRecycled : KernelState := KernelState.boot.after (startProcess ++ recyclePid)

/-- The exit of a process takes the child of another one away. -/
theorem exit_reparents_grandchild :
    ¬ ∀ (k k' : KernelState) (target : PcbPtr) (pcb : Pcb) (event : Event),
      Run (fun _ _ => True) .boot k → k.pcbs target = some pcb → event.Ends target pcb.pid →
      Step k event k' → ReparentsOwn k pcb.pid k' := by
  intro always
  have reached : Run (fun _ _ => True) .boot pidRecycled := .after_sound _ (by decide +kernel)
  have step : Step pidRecycled (.exit 2) (pidRecycled.after [.exit 2]) :=
    step_after (by decide +kernel)
  obtain ⟨pcb, found, isPid⟩ : ∃ pcb, pidRecycled.pcbs 2 = some pcb ∧ pcb.pid = 3 :=
    Option.map_eq_some_iff.mp (by decide +kernel)
  have parent := always _ _ 2 pcb (.exit 2) reached found rfl step 5
  have before : pidRecycled.ppidAt 5 = some 5 := by decide +kernel
  have after : (pidRecycled.after [.exit 2]).ppidAt 5 = some 1 := by decide +kernel
  rw [before, after, isPid] at parent
  exact absurd (Option.some.inj parent) (by decide)

end Reparenting

section ChildLimit

/-- A PCB whose thread has not ended lists all the children that were made for it, and none were
made for a PCB that is not allocated yet. -/
structure Counts (born : PcbPtr → Nat) (k : KernelState) : Prop where
  listed : ∀ ptr pcb, k.pcbs ptr = some pcb → pcb.thrd ≠ .ended → pcb.childPids.length = born ptr
  fresh : ∀ ptr, k.nextPtr ≤ ptr → born ptr = 0

/-- The children made for a PCB. -/
def childrenMade (events : List Event) (ptr : PcbPtr) : Nat :=
  events.countP fun event => event.creator = some ptr

theorem counts_winnows (counts : Counts born k) (winnows : Winnows k k') : Counts born k' := by
  refine ⟨fun ptr pcb' found going => ?_, fun ptr fresh => counts.fresh ptr (winnows.nextPtr ▸ fresh)⟩
  obtain ⟨pcb, before, alike⟩ := winnows.was ptr pcb' found
  rw [alike.childPids]
  exact counts.listed ptr pcb before fun ended => going (alike.ended ended)

theorem counts_disowns (counts : Counts born k) (disowns : Disowns k target pcb k') :
    Counts born k' := by
  refine ⟨fun ptr pcb' found going => ?_, fun ptr fresh => counts.fresh ptr (disowns.nextPtr ▸ fresh)⟩
  by_cases isTarget : ptr = target
  · obtain ⟨own, ownFound, _, _, ended, _⟩ := disowns.ended
    obtain rfl := Option.some.inj ((isTarget ▸ ownFound).symm.trans found)
    exact absurd ended going
  · rw [disowns.others ptr isTarget] at found
    obtain ⟨before, was, rfl⟩ := Option.map_eq_some_iff.mp found
    exact counts.listed ptr before was going

theorem counts_adopts (counts : Counts born k) (found : k.pcbs self = some pcb)
    (live : pcb.thrd = .live) (bounded : self < k.nextPtr)
    (pcbs : base.pcbs = (k.adopt self pcb priority pid).pcbs) (nextPtr : base.nextPtr = k.nextPtr + 1) :
    Counts (fun ptr => born ptr + if ptr = self then 1 else 0) base := by
  refine ⟨fun ptr pcb' here going => ?_, fun ptr fresh => ?_⟩
  · rw [pcbs, adopt_pcbs] at here
    split at here
    · next isSelf =>
        cases here
        have before := counts.listed self pcb found (live ▸ nofun)
        rw [if_pos isSelf, isSelf, List.length_append, before]
        rfl
    · next other =>
        rw [if_neg other, Nat.add_zero]
        split at here
        · next isNew =>
            cases here
            exact (counts.fresh ptr (Nat.le_of_eq isNew.symm)).symm
        · exact counts.listed ptr pcb' here going
  · have later : k.nextPtr < ptr := Nat.lt_of_lt_of_le (nextPtr ▸ Nat.lt_succ_self _) fresh
    rw [if_neg (Nat.ne_of_gt (Nat.lt_trans bounded later)), Nat.add_zero]
    exact counts.fresh ptr (Nat.le_of_lt later)

theorem event_counts (families : Families k) (counts : Counts born k) (step : Step k event k') :
    Counts (fun ptr => born ptr + if event.creator = some ptr then 1 else 0) k' := by
  have none_counts : event.creator = none →
      (fun ptr => born ptr + if event.creator = some ptr then 1 else 0) = born := by
    intro none
    funext ptr
    rw [none, if_neg nofun, Nat.add_zero]
  rcases event_kinStep families step with ⟨none, winnows⟩ |
    ⟨self, pcb, priority, pid, base, creates, found, live, _, table, pcbs, nextPtr, same⟩ |
    ⟨target, pcb, none, found, table, disowns⟩
  · rw [none_counts none]
    exact counts_winnows counts winnows
  · have adopted := counts_adopts counts found live (families.table.bounded self pcb found) pcbs nextPtr
    have same_counts : (fun ptr => born ptr + if event.creator = some ptr then 1 else 0) =
        fun ptr => born ptr + if ptr = self then 1 else 0 := by
      funext ptr
      rw [creates]
      exact congrArg (born ptr + ·) (if_congr ⟨fun same => (Option.some.inj same).symm,
        fun same => congrArg some same.symm⟩ rfl rfl)
    rw [same_counts]
    exact counts_winnows adopted same.winnows
  · rw [none_counts none]
    exact counts_disowns counts disowns

theorem run_counts (families : Families k) (counts : Counts born k)
    (run : runEvents events k = some ((), k')) :
    Counts (fun ptr => born ptr + childrenMade events ptr) k' := by
  induction events generalizing k born with
  | nil =>
      cases run
      exact counts
  | cons event rest ih =>
      obtain ⟨_, k₁, step, run⟩ := Prog.bind_inv run
      have after := ih (event_families families step) (event_counts families counts step) run
      have sums : (fun ptr => born ptr + childrenMade (event :: rest) ptr) = fun ptr =>
          (born ptr + if event.creator = some ptr then 1 else 0) + childrenMade rest ptr := by
        funext ptr
        rw [childrenMade, List.countP_cons, childrenMade]
        simp only [decide_eq_true_eq]
        omega
      rw [sums]
      exact after

theorem boot_counts : Counts (fun _ => 0) .boot := by
  refine ⟨fun ptr pcb found _ => ?_, fun _ _ => rfl⟩
  rw [boot_pcbs] at found
  split at found
  · cases found
    rfl
  · cases found

/-- `k_proc_create` does not panic exactly if the caller has made fewer than `NUM_CHILDREN_MAX`
children in the whole run. -/
theorem kProcCreate_iff (run : runEvents events .boot = some ((), k))
    (called : asCaller self k = some (pcb, k')) :
    (kProcCreate self priority k).isSome ↔ childrenMade events self < numChildrenMax := by
  obtain ⟨found, live, listed, rfl⟩ := asCaller_inv called
  have reached : Run (fun _ _ => True) .boot k :=
    Run.of_runEvents (.refl _) (fun _ _ _ => trivial) run
  have roster := (run_families reached boot_families).roster
  have made : pcb.childPids.length = childrenMade events self := by
    have counted := (run_counts boot_families boot_counts run).listed self pcb found (live ▸ nofun)
    rwa [Nat.zero_add] at counted
  constructor
  · intro creates
    obtain ⟨⟨new, k'⟩, run'⟩ := Option.isSome_iff_exists.mp creates
    obtain ⟨pcb₁, _, found₁, _, _, room, _⟩ := kProcCreate_inv roster run'
    obtain rfl := Option.some.inj (found.symm.trans found₁)
    exact made ▸ room
  · intro room
    obtain ⟨pid, chosen⟩ := getNextFreePid_run roster
    rw [kProcCreate_run roster found live listed (made ▸ room) chosen]
    rfl

/-- The shell makes three processes, waits for the one that has ended, and calls again. -/
def familyEvents : List Event :=
  [.pick 0, .spawnShell 0, .quantumEnd, .maintenancePass, .pick 0, .procCreate 1 1,
    .setRoutineAndRun 1 2, .procCreate 1 2, .setRoutineAndRun 1 3, .procCreate 1 0, .quantumEnd,
    .maintenancePass, .pick 1, .exit 2, .quantumEnd, .maintenancePass, .pick 0, .waitpid 1 3 false,
    .waitpidJoined 1 2, .waitpidReap 1 2, .quantumEnd, .maintenancePass, .pick 0]

/-- The child that was waited for counts like the two that run. -/
theorem kProcCreate_iff_familyEvents :
    childrenMade familyEvents 1 = 3 ∧
      (kProcCreate 1 1 (KernelState.boot.after familyEvents)).isSome := by
  have run : runEvents familyEvents .boot = some ((), KernelState.boot.after familyEvents) :=
    runEvents_after (by decide +kernel)
  obtain ⟨⟨pcb, k'⟩, called⟩ := Option.isSome_iff_exists.mp
    (show (asCaller 1 (KernelState.boot.after familyEvents)).isSome by decide +kernel)
  exact ⟨by decide, (kProcCreate_iff run called).mpr (by decide)⟩

/-- The children of a process that it has not reaped. -/
def KernelState.unreapedChildren (k : KernelState) (pid : Int) : Nat :=
  k.allUnreapedPcbVector.countP fun ptr =>
    (k.pcbs ptr).any fun pcb => pcb.ppid = pid ∧ pcb.status ≠ .reaped

/-- Each process has fewer than `NUM_CHILDREN_MAX` children that it has not reaped. -/
def FewUnreaped (k : KernelState) : Prop := ∀ pid, k.unreapedChildren pid < numChildrenMax

theorem fewUnreaped_of_length (short : k.allUnreapedPcbVector.length < numChildrenMax) :
    FewUnreaped k := fun _ => Nat.lt_of_le_of_lt List.countP_le_length short

/-- One process makes child after child. -/
theorem creations_run (n : Nat) (families : Families k) (found : k.pcbs self = some pcb)
    (live : pcb.thrd = .live) (listed : self ∈ k.allUnreapedPcbVector)
    (room : pcb.childPids.length + n ≤ numChildrenMax)
    (short : k.allUnreapedPcbVector.length + n ≤ numChildrenMax) :
    ∃ k' pcb', Run (fun k _ => FewUnreaped k) k k' ∧ Families k' ∧ k'.pcbs self = some pcb' ∧
      pcb'.thrd = .live ∧ self ∈ k'.allUnreapedPcbVector ∧
      pcb'.childPids.length = pcb.childPids.length + n ∧
      k'.allUnreapedPcbVector.length = k.allUnreapedPcbVector.length + n := by
  induction n with
  | zero => exact ⟨k, pcb, .refl k, families, found, live, listed, rfl, rfl⟩
  | succ n ih =>
      obtain ⟨k', pcb', run, families', found', live', listed', children, length⟩ :=
        ih (by omega) (by omega)
      obtain ⟨pid, chosen⟩ := getNextFreePid_run families'.roster
      have created : kProcCreate self 0 k' = some (k'.nextPtr, k'.adopt self pcb' 0 pid) :=
        kProcCreate_run families'.roster found' live' listed' (by omega) chosen
      have step : Step k' (.procCreate self 0) (k'.adopt self pcb' 0 pid) := by
        show (kProcCreate self 0 >>= fun _ => pure ()) k' = _
        rw [Prog.bind_of_run created]
        rfl
      refine ⟨_, _, run.step (fewUnreaped_of_length (by omega)) step, event_families families' step,
        adopt_self k' self pcb' 0 pid, live', List.mem_append_left _ listed', ?_, ?_⟩
      · rw [List.length_append, children]
        rfl
      · show (k'.allUnreapedPcbVector ++ [k'.nextPtr]).length = _
        rw [List.length_append, length]
        rfl

/-- The shell makes a child, which exits and is reaped. -/
def childLife (child : PcbPtr) : List Event :=
  [.procCreate 1 1, .setRoutineAndRun 1 child, .quantumEnd, .maintenancePass, .pick 1, .exit child,
    .quantumEnd, .maintenancePass, .pick 0, .waitpid 1 3 false, .waitpidJoined 1 child,
    .waitpidReap 1 child, .quantumEnd, .maintenancePass, .pick 0]

/-- The shell has been started. -/
def spawnEvents : List Event := [.pick 0, .spawnShell 0, .quantumEnd, .maintenancePass, .pick 0]

/-- Three children have come and gone. -/
def threeReaped : KernelState :=
  KernelState.boot.after (spawnEvents ++ childLife 2 ++ childLife 3 ++ childLife 4)

/-- With three children reaped and 125 there, the next `k_proc_create` panics. -/
theorem kProcCreate_panics :
    ¬ ∀ (k k' : KernelState) (self : PcbPtr) (pcb : Pcb) (priority : Level),
      Run (fun k _ => FewUnreaped k) .boot k → FewUnreaped k → asCaller self k = some (pcb, k') →
      (kProcCreate self priority k).isSome := by
  intro always
  have reaped : Run (fun k _ => FewUnreaped k) .boot threeReaped := by
    have short : Run (fun k _ => k.allUnreapedPcbVector.length < numChildrenMax) .boot threeReaped :=
      .after_sound _ (by decide +kernel)
    exact short.mono fun k _ => fewUnreaped_of_length
  obtain ⟨pcb, found, live, children⟩ : ∃ pcb, threeReaped.pcbs 1 = some pcb ∧ pcb.thrd = .live ∧
      pcb.childPids.length = 3 := by
    have here : (threeReaped.pcbs 1).map (fun pcb => (pcb.thrd, pcb.childPids.length)) =
        some (.live, 3) := by decide +kernel
    obtain ⟨pcb, found, same⟩ := Option.map_eq_some_iff.mp here
    exact ⟨pcb, found, congrArg Prod.fst same, congrArg Prod.snd same⟩
  have length : threeReaped.allUnreapedPcbVector.length = 2 := by decide +kernel
  have listed : 1 ∈ threeReaped.allUnreapedPcbVector := by decide +kernel
  have limit : numChildrenMax = 128 := rfl
  obtain ⟨k, pcb', run, families, found', live', listed', full, length'⟩ :=
    creations_run 125 (run_families reaped boot_families) found live listed (by omega) (by omega)
  have succeeds := always k k 1 pcb' 0 (reaped.trans run) (fewUnreaped_of_length (by omega))
    (asCaller_run found' live' listed')
  obtain ⟨⟨new, k'⟩, made⟩ := Option.isSome_iff_exists.mp succeeds
  obtain ⟨pcb₁, _, found₁, _, _, room, _⟩ := kProcCreate_inv families.roster made
  obtain rfl := Option.some.inj (found'.symm.trans found₁)
  omega

end ChildLimit

end PennOs.Kernel
