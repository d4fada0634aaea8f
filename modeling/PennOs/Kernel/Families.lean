import PennOs.Kernel.Roster

set_option autoImplicit false

/- Parents and children: what each event does to parent PIDs and child lists. -/
namespace PennOs.Kernel

open Prog (Keeps)

variable {k k' k'' : KernelState} {ptr self target : PcbPtr} {level : Level} {pcb pcb' : Pcb}
  {pid : Int}

/-- The PCB has exited or was terminated by another process. -/
def Pcb.Dead (pcb : Pcb) : Prop := pcb.status = .zombie ∨ pcb.status = .reaped

/-- PIDs, parent and child list are the same, and the PCB did not die. -/
structure Pcb.SameKin (pcb pcb' : Pcb) : Prop where
  pid : pcb'.pid = pcb.pid
  ppid : pcb'.ppid = pcb.ppid
  childPids : pcb'.childPids = pcb.childPids
  dead : pcb'.Dead → pcb.Dead
  ended : pcb.thrd = .ended → pcb'.thrd = .ended

/-- No PCB came, went or died, and all have the parents and children they had. -/
structure SameKin (k k' : KernelState) : Prop where
  vector : k'.allUnreapedPcbVector = k.allUnreapedPcbVector
  nextPtr : k'.nextPtr = k.nextPtr
  shellSpawned : k'.shellSpawned = k.shellSpawned
  was : ∀ ptr pcb', k'.pcbs ptr = some pcb' → ∃ pcb, k.pcbs ptr = some pcb ∧ pcb.SameKin pcb'
  kept : ∀ ptr pcb, k.pcbs ptr = some pcb → ∃ pcb', k'.pcbs ptr = some pcb' ∧ pcb.SameKin pcb'

section SameKin

theorem Pcb.dead_congr (status : pcb'.status = pcb.status) : pcb'.Dead ↔ pcb.Dead := by
  rw [Pcb.Dead, Pcb.Dead, status]

theorem Pcb.SameKin.refl (pcb : Pcb) : pcb.SameKin pcb := ⟨rfl, rfl, rfl, id, id⟩

theorem Pcb.SameKin.trans {pcb'' : Pcb} (first : pcb.SameKin pcb') (second : pcb'.SameKin pcb'') :
    pcb.SameKin pcb'' where
  pid := second.pid.trans first.pid
  ppid := second.ppid.trans first.ppid
  childPids := second.childPids.trans first.childPids
  dead := first.dead ∘ second.dead
  ended := second.ended ∘ first.ended

theorem SameKin.of_pcbs (pcbs : k'.pcbs = k.pcbs)
    (vector : k'.allUnreapedPcbVector = k.allUnreapedPcbVector) (nextPtr : k'.nextPtr = k.nextPtr)
    (shellSpawned : k'.shellSpawned = k.shellSpawned) : SameKin k k' :=
  ⟨vector, nextPtr, shellSpawned, fun _ pcb found => ⟨pcb, pcbs ▸ found, .refl pcb⟩,
    fun _ pcb found => ⟨pcb, pcbs ▸ found, .refl pcb⟩⟩

instance : Std.Refl SameKin where
  refl _ := .of_pcbs rfl rfl rfl rfl

instance : IsTrans KernelState SameKin where
  trans k k' k'' first second := by
    refine ⟨second.vector.trans first.vector, second.nextPtr.trans first.nextPtr,
      second.shellSpawned.trans first.shellSpawned, fun ptr pcb'' found => ?_, fun ptr pcb found => ?_⟩
    · obtain ⟨pcb', found', alike'⟩ := second.was ptr pcb'' found
      obtain ⟨pcb, before, alike⟩ := first.was ptr pcb' found'
      exact ⟨pcb, before, alike.trans alike'⟩
    · obtain ⟨pcb', found', alike⟩ := first.kept ptr pcb found
      obtain ⟨pcb'', after, alike'⟩ := second.kept ptr pcb' found'
      exact ⟨pcb'', after, alike.trans alike'⟩

theorem SameKin.setPcb (found : k.pcbs ptr = some pcb) (alike : pcb.SameKin pcb') :
    SameKin k (k.setPcb ptr pcb') := by
  refine ⟨rfl, rfl, rfl, fun other otherPcb found' => ?_, fun other otherPcb found' => ?_⟩
  · rw [setPcb_pcbs] at found'
    split at found'
    · next here =>
        cases found'
        exact ⟨pcb, here ▸ found, alike⟩
    · exact ⟨otherPcb, found', .refl _⟩
  · rw [setPcb_pcbs]
    split
    · next here =>
        subst here
        obtain rfl := Option.some.inj (found.symm.trans found')
        exact ⟨pcb', rfl, alike⟩
    · exact ⟨otherPcb, found', .refl _⟩

theorem update_sameKin {f : Pcb → Pcb} (alike : ∀ pcb : Pcb, pcb.SameKin (f pcb)) :
    Keeps SameKin (update ptr f) := by
  intro k _ k' run
  obtain ⟨pcb, found, rfl⟩ := update_inv run
  exact .setPcb found (alike pcb)

theorem Pcb.SameKin.of_core (core : pcb'.core = pcb.core) : pcb.SameKin pcb' := by
  have status := Pcb.core_status core
  have ppid := congrArg Pcb.ppid core
  have childPids := congrArg Pcb.childPids core
  exact ⟨Pcb.core_pid core, ppid, childPids, (Pcb.dead_congr status).mp,
    fun ended => (Pcb.core_thrd core).trans ended⟩

theorem SameKin.of_sameButLinks (links : SameButLinks k k') : SameKin k k' := by
  refine ⟨links.vector, links.nextPtr, links.shellSpawned, fun ptr pcb' found => ?_,
    fun ptr pcb found => ?_⟩
  · obtain ⟨pcb, before, core⟩ := links.pcb found
    exact ⟨pcb, before, .of_core core⟩
  · have cores := links.cores ptr
    rw [found] at cores
    obtain ⟨pcb', after, core⟩ := Option.map_eq_some_iff.mp cores
    exact ⟨pcb', after, .of_core core⟩

theorem deref_sameKin : Keeps SameKin (deref ptr) := .of_state fun _ _ _ run => (deref_inv run).2

theorem require_sameKin {condition : Prop} [Decidable condition] : Keeps SameKin (require condition) :=
  .of_state fun _ _ _ run => (require_inv run).2

theorem asCaller_sameKin : Keeps SameKin (asCaller ptr) :=
  .of_state fun _ _ _ run => (asCaller_inv run).2.2.2

theorem seek_sameKin : Keeps SameKin (pcbVecSeekPcbByPid pid) :=
  .of_state fun _ _ _ run => (pcbVecSeekPcbByPid_inv run).1

theorem pcbQueuePush_sameKin : Keeps SameKin (pcbQueuePush level ptr) :=
  fun _ _ _ run => .of_sameButLinks (pcbQueuePush_frame run)

theorem setPending_sameKin (pending : KernelState → List Pending) :
    Keeps SameKin (Prog.modify fun k => k.setPending (pending k)) :=
  .modify fun _ => .of_pcbs rfl rfl rfl rfl

/-- A change of a PCB that only concerns how it runs. -/
theorem Pcb.SameKin.of_status (same : pcb'.pid = pcb.pid ∧ pcb'.ppid = pcb.ppid ∧
    pcb'.childPids = pcb.childPids ∧ pcb'.thrd = pcb.thrd)
    (status : pcb'.status ≠ .zombie ∧ pcb'.status ≠ .reaped) : pcb.SameKin pcb' :=
  ⟨same.1, same.2.1, same.2.2.1, fun dead => absurd dead (not_or.mpr status),
    fun ended => same.2.2.2.trans ended⟩

/-- A change that is not about the status. -/
theorem Pcb.SameKin.of_same (same : pcb'.pid = pcb.pid ∧ pcb'.ppid = pcb.ppid ∧
    pcb'.childPids = pcb.childPids ∧ pcb'.status = pcb.status)
    (ended : pcb.thrd = .ended → pcb'.thrd = .ended) : pcb.SameKin pcb' :=
  ⟨same.1, same.2.1, same.2.2.1, (Pcb.dead_congr same.2.2.2).mp, ended⟩

end SameKin

section Calls

theorem shellReturned_sameKin : Keeps SameKin (shellReturned self) :=
  .bind asCaller_sameKin fun _ => .bind require_sameKin fun _ =>
    update_sameKin fun _ => .of_same ⟨rfl, rfl, rfl, rfl⟩ fun _ => rfl

theorem initResumed_sameKin {shell : PcbPtr} : Keeps SameKin (initResumed self shell) :=
  .bind asCaller_sameKin fun _ => .bind .get fun _ => .bind deref_sameKin fun _ =>
    .bind require_sameKin fun _ => .bind (setPending_sameKin _) fun _ =>
    update_sameKin fun _ => .of_status ⟨rfl, rfl, rfl, rfl⟩ ⟨nofun, nofun⟩

theorem setRoutineAndRun_sameKin : Keeps SameKin (setRoutineAndRun self target) := by
  intro k _ k' run
  obtain ⟨_, k₁, called, run⟩ := Prog.bind_inv run
  obtain ⟨_, _, _, rfl⟩ := asCaller_inv called
  obtain ⟨pcb, k₂, read, run⟩ := Prog.bind_inv run
  obtain ⟨found, rfl⟩ := deref_inv read
  obtain ⟨_, k₃, checked, run⟩ := Prog.bind_inv run
  obtain ⟨absent, rfl⟩ := require_inv checked
  obtain ⟨_, k₄, started, run⟩ := Prog.bind_inv run
  obtain ⟨pcb₁, found₁, rfl⟩ := update_inv started
  obtain rfl := Option.some.inj (found.symm.trans found₁)
  have start : SameKin k (k.setPcb target { pcb with thrd := .live, status := .running }) :=
    .setPcb found ⟨rfl, rfl, rfl, fun dead => absurd dead (not_or.mpr ⟨nofun, nofun⟩),
      fun ended => absurd (absent.symm.trans ended) nofun⟩
  have push : Keeps SameKin (do
      let pcb ← deref target
      pcbQueuePush pcb.priorityLevel target) := .bind deref_sameKin fun _ => pcbQueuePush_sameKin
  exact IsTrans.trans _ _ _ start (push _ _ _ run)

theorem selfStopResumed_sameKin : Keeps SameKin (selfStopResumed self) :=
  .bind asCaller_sameKin fun _ => .bind .get fun _ => .bind require_sameKin fun _ =>
    .bind (setPending_sameKin _) fun _ =>
    update_sameKin fun _ => .of_status ⟨rfl, rfl, rfl, rfl⟩ ⟨nofun, nofun⟩

theorem kSleep_sameKin {length : UInt32} : Keeps SameKin (kSleep self length) :=
  .bind asCaller_sameKin fun _ => .bind .get fun _ =>
    .bind (update_sameKin fun _ => .of_status ⟨rfl, rfl, rfl, rfl⟩ ⟨nofun, nofun⟩) fun _ =>
    setPending_sameKin _

theorem kSleepResumed_sameKin : Keeps SameKin (kSleepResumed self) :=
  .bind asCaller_sameKin fun _ => .bind .get fun _ => .bind require_sameKin fun _ =>
    .bind (setPending_sameKin _) fun _ => update_sameKin fun _ => .of_same ⟨rfl, rfl, rfl, rfl⟩ id

theorem kWaitpid_sameKin {nohang : Bool} : Keeps SameKin (kWaitpid self pid nohang) := by
  refine .bind require_sameKin fun _ => .bind asCaller_sameKin fun _ => .bind .get fun _ =>
    .bind (.of_state fun _ _ _ run => seekChild_state run) fun child => ?_
  cases child with
  | none => exact .bind (.modify fun _ => .of_pcbs rfl rfl rfl rfl) fun _ => .pure _
  | some child =>
      refine .bind deref_sameKin fun _ => .ite (fun _ => .pure _) fun _ => ?_
      exact .bind (update_sameKin fun _ => .of_status ⟨rfl, rfl, rfl, rfl⟩ ⟨nofun, nofun⟩) fun _ =>
        .bind (setPending_sameKin _) fun _ => .pure _

theorem kWaitpidJoined_sameKin {child : PcbPtr} : Keeps SameKin (kWaitpidJoined self child) :=
  .bind asCaller_sameKin fun _ => .bind .get fun _ => .bind deref_sameKin fun _ =>
    .bind require_sameKin fun _ => .bind (setPending_sameKin _) fun _ =>
    update_sameKin fun _ => .of_status ⟨rfl, rfl, rfl, rfl⟩ ⟨nofun, nofun⟩

/-- Only a zombie is reaped. -/
theorem kWaitpidReap_sameKin {child : PcbPtr} : Keeps SameKin (kWaitpidReap self child) := by
  refine .bind asCaller_sameKin fun _ => .bind .get fun _ => .bind require_sameKin fun _ =>
    .bind (setPending_sameKin _) fun _ => ?_
  intro k result k' run
  obtain ⟨pcb, k₁, read, run⟩ := Prog.bind_inv run
  obtain ⟨found, rfl⟩ := deref_inv read
  obtain ⟨_, k₂, checked, run⟩ := Prog.bind_inv run
  obtain ⟨zombie, rfl⟩ := require_inv checked
  obtain ⟨_, k₃, marked, run⟩ := Prog.bind_inv run
  obtain ⟨pcb₁, found₁, rfl⟩ := update_inv marked
  obtain rfl := Option.some.inj (found.symm.trans found₁)
  simp only [Prog.pure_run, Option.some.injEq, Prod.mk.injEq] at run
  exact run.2 ▸ .setPcb found ⟨rfl, rfl, rfl, fun _ => .inl zombie, id⟩

theorem kNice_sameKin {newPriority : Int} : Keeps SameKin (kNice self pid newPriority) := by
  refine .bind asCaller_sameKin fun _ => ?_
  split
  swap
  · exact .pure _
  refine .bind seek_sameKin fun found => ?_
  cases found with
  | none => exact .pure _
  | some target =>
      exact .bind (update_sameKin fun _ => .of_same ⟨rfl, rfl, rfl, rfl⟩ id) fun _ => .pure _

theorem pick_sameKin : Keeps SameKin (pick level) := by
  refine .bind .get fun _ => .bind require_sameKin fun _ =>
    .bind (fun _ _ _ run => .of_sameButLinks (pickLoop_frame run)) fun found => ?_
  cases found with
  | none => exact .pure _
  | some curr =>
      exact .bind deref_sameKin fun _ => .bind require_sameKin fun _ =>
        .modify fun _ => .of_pcbs rfl rfl rfl rfl

theorem idleTick_sameKin : Keeps SameKin idleTick :=
  .bind .get fun _ => .bind require_sameKin fun _ => .modify fun _ => .of_pcbs rfl rfl rfl rfl

end Calls

/-- What `SameKin` says, except that dead PCBs may be freed. -/
structure Winnows (k k' : KernelState) : Prop where
  nextPtr : k'.nextPtr = k.nextPtr
  was : ∀ ptr pcb', k'.pcbs ptr = some pcb' → ∃ pcb, k.pcbs ptr = some pcb ∧ pcb.SameKin pcb'
  kept : ∀ ptr pcb, k.pcbs ptr = some pcb →
    (∃ pcb', k'.pcbs ptr = some pcb' ∧ pcb.SameKin pcb') ∨ pcb.Dead
  table : Table k → Table k'

section Winnows

theorem SameKin.table (same : SameKin k k') (table : Table k) : Table k' where
  bounded ptr pcb' found := by
    obtain ⟨pcb, before, _⟩ := same.was ptr pcb' found
    exact same.nextPtr ▸ table.bounded ptr pcb before
  listed ptr pcb' found := by
    obtain ⟨pcb, before, _⟩ := same.was ptr pcb' found
    exact same.vector ▸ table.listed ptr pcb before
  allocated ptr member := by
    obtain ⟨pcb, found⟩ := table.allocated ptr (same.vector ▸ member)
    obtain ⟨pcb', after, _⟩ := same.kept ptr pcb found
    exact ⟨pcb', after⟩
  distinct := same.vector ▸ table.distinct
  pids ptr other pcb' pcb'' found found' equal := by
    obtain ⟨pcb, before, alike⟩ := same.was ptr pcb' found
    obtain ⟨pcb₁, before₁, alike₁⟩ := same.was other pcb'' found'
    exact table.pids ptr other pcb pcb₁ before before₁ (alike.pid.symm.trans (equal.trans alike₁.pid))
  shell ptr pcb' found pid' := by
    obtain ⟨pcb, before, alike⟩ := same.was ptr pcb' found
    exact same.shellSpawned ▸ table.shell ptr pcb before (alike.pid.symm.trans pid')

theorem SameKin.winnows (same : SameKin k k') : Winnows k k' :=
  ⟨same.nextPtr, same.was, fun ptr pcb found => .inl (same.kept ptr pcb found), same.table⟩

instance : Std.Refl Winnows where
  refl k := SameKin.winnows (Std.Refl.refl k)

instance : IsTrans KernelState Winnows where
  trans k k' k'' first second := by
    refine ⟨second.nextPtr.trans first.nextPtr, fun ptr pcb'' found => ?_, fun ptr pcb found => ?_,
      second.table ∘ first.table⟩
    · obtain ⟨pcb', found', alike'⟩ := second.was ptr pcb'' found
      obtain ⟨pcb, before, alike⟩ := first.was ptr pcb' found'
      exact ⟨pcb, before, alike.trans alike'⟩
    · rcases first.kept ptr pcb found with ⟨pcb', found', alike⟩ | dead
      · rcases second.kept ptr pcb' found' with ⟨pcb'', after, alike'⟩ | dead
        · exact .inl ⟨pcb'', after, alike.trans alike'⟩
        · exact .inr (alike.dead dead)
      · exact .inr dead

theorem winnows_of_sameKin {α : Type} {p : KernelM α} (same : Keeps SameKin p) : Keeps Winnows p :=
  fun s a s' run => (same s a s' run).winnows

/-- A reaped PCB is freed. -/
theorem remove_winnows (found : k.pcbs ptr = some pcb) (dead : pcb.Dead)
    (run : (pcbVecRemoveByPcb ptr >>= fun _ => pcbDestroy ptr) k = some ((), k')) : Winnows k k' := by
  simp only [pcbVecRemoveByPcb, pcbDestroy, Prog.modify_bind, Prog.modify_run, Option.some.injEq,
    Prod.mk.injEq, true_and] at run
  subst run
  have keeps : ∀ other pcb, Function.update k.pcbs ptr none other = some pcb →
      other ≠ ptr ∧ k.pcbs other = some pcb := by
    intro other pcb here
    rw [Function.update_apply] at here
    split at here
    · cases here
    · next apart => exact ⟨apart, here⟩
  refine ⟨rfl, fun other pcb here => ⟨pcb, (keeps other pcb here).2, .refl pcb⟩, ?_, fun table => ?_⟩
  · intro other otherPcb before
    by_cases here : other = ptr
    · subst here
      obtain rfl := Option.some.inj (found.symm.trans before)
      exact .inr dead
    · exact .inl ⟨otherPcb, (Function.update_of_ne here _ _).trans before, .refl otherPcb⟩
  · constructor
    · exact fun other pcb here => table.bounded other pcb (keeps other pcb here).2
    · intro other pcb here
      obtain ⟨apart, before⟩ := keeps other pcb here
      exact (List.mem_erase_of_ne apart).mpr (table.listed other pcb before)
    · intro other member
      obtain ⟨apart, before⟩ := table.distinct.mem_erase_iff.mp member
      obtain ⟨pcb, here⟩ := table.allocated other before
      exact ⟨pcb, (Function.update_of_ne apart _ _).trans here⟩
    · exact table.distinct.erase ptr
    · exact fun first second pcb pcb' here here' =>
        table.pids first second pcb pcb' (keeps first pcb here).2 (keeps second pcb' here').2
    · exact fun other pcb here => table.shell other pcb (keeps other pcb here).2

theorem wake_sameKin : Keeps SameKin (update ptr fun pcb => { pcb with status := .running }) :=
  update_sameKin fun _ => .of_status ⟨rfl, rfl, rfl, rfl⟩ ⟨nofun, nofun⟩

theorem maintain_winnows : Keeps Winnows (maintain ptr) := by
  intro k gone k' run
  obtain ⟨pcb, k₁, read, run⟩ := Prog.bind_inv run
  obtain ⟨found, rfl⟩ := deref_inv read
  rw [Prog.get_bind] at run
  by_cases running : pcb.status = .running
  · rw [if_pos running] at run
    refine winnows_of_sameKin (.bind (.of_state fun _ _ _ run => pcbInQueue_state run) fun _ =>
      .ite (fun _ => .bind pcbQueuePush_sameKin fun _ => .pure _) fun _ => .pure _) _ _ _ run
  rw [if_neg running] at run
  by_cases asleep : pcb.status = .blocked ∧ pcb.sleepStamp ≠ 0
  · rw [if_pos asleep] at run
    refine winnows_of_sameKin (.ite (fun _ => .bind wake_sameKin fun _ =>
      .bind pcbQueuePush_sameKin fun _ => .pure _) fun _ => .pure _) _ _ _ run
  rw [if_neg asleep] at run
  by_cases reaped : pcb.status = .reaped
  · rw [if_pos reaped] at run
    obtain ⟨_, k₂, popped, run⟩ := Prog.bind_inv run
    have links := SameKin.of_sameButLinks (pcbQueuePopByPid_frame popped)
    obtain ⟨pcb₂, found₂, _⟩ := links.kept ptr pcb found
    have dead : pcb₂.Dead := by
      obtain ⟨pcb₁, before, core⟩ := (pcbQueuePopByPid_frame popped).pcb found₂
      obtain rfl := Option.some.inj (found.symm.trans before)
      exact .inr ((Pcb.core_status core).trans reaped)
    obtain ⟨_, k₃, removed, run⟩ := Prog.bind_inv run
    obtain ⟨_, k₄, destroyed, run⟩ := Prog.bind_inv run
    simp only [Prog.pure_run, Option.some.injEq, Prod.mk.injEq] at run
    have gone := remove_winnows found₂ dead ((Prog.bind_of_run removed _).trans destroyed)
    exact run.2 ▸ IsTrans.trans _ _ _ links.winnows gone
  · rw [if_neg reaped] at run
    exact winnows_of_sameKin (.pure _) _ _ _ run

theorem maintenancePass_winnows : Keeps Winnows maintenancePass := by
  have loop : ∀ count i, Keeps Winnows (maintenanceLoop count i) := by
    intro count
    induction count with
    | zero => exact fun _ => .pure _
    | succ count ih =>
        intro i
        refine .bind .get fun k => ?_
        cases k.allUnreapedPcbVector[i]? with
        | none => exact .fault
        | some curr => exact .bind maintain_winnows fun _ => .ite (fun _ => ih i) fun _ => ih (i + 1)
  exact .bind .get fun _ => .bind (winnows_of_sameKin require_sameKin) fun _ => loop _ _

theorem quantumEnd_winnows : Keeps Winnows quantumEnd := by
  refine .bind .get fun first => ?_
  cases first.quantum with
  | none => exact .fault
  | some slot =>
      refine .bind (winnows_of_sameKin (.modify fun _ => .of_pcbs rfl rfl rfl rfl)) fun _ =>
        .bind (fun _ _ _ run => (SameKin.of_sameButLinks (pcbQueuePop_frame run)).winnows)
          fun popped => ?_
      cases popped with
      | none => exact .pure _
      | some _ =>
          intro k result k' run
          obtain ⟨pcb, k₁, read, run⟩ := Prog.bind_inv run
          obtain ⟨found, rfl⟩ := deref_inv read
          by_cases running : pcb.status = .running
          · rw [if_pos running] at run
            exact (pcbQueuePush_sameKin _ _ _ run).winnows
          rw [if_neg running] at run
          by_cases asleep : pcb.status = .blocked ∧ pcb.sleepStamp ≠ 0
          · rw [if_pos asleep] at run
            refine winnows_of_sameKin (.ite (fun _ => .bind wake_sameKin fun _ =>
              pcbQueuePush_sameKin) fun _ => .pure _) _ _ _ run
          rw [if_neg asleep] at run
          by_cases reaped : pcb.status = .reaped
          · rw [if_pos reaped] at run
            exact remove_winnows found (.inr reaped) run
          · rw [if_neg reaped] at run
            exact winnows_of_sameKin (.pure _) _ _ _ run

end Winnows

end PennOs.Kernel
