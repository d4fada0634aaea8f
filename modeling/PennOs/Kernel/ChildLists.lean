import Mathlib.Data.List.Nodup
import Mathlib.Data.List.Perm.Subperm
import PennOs.Kernel.Families

set_option autoImplicit false

/- The invariant of the child lists: every child of a process is on its list. -/
namespace PennOs.Kernel

open Prog (Keeps)

variable {k k' k'' : KernelState} {ptr self target new : PcbPtr} {level priority : Level}
  {pcb pcb' : Pcb} {pid : Int} {pids : List Int} {ptrs : List PcbPtr} {event : Event}

/-- A child is made: its PCB is allocated and listed, and its parent has one more child. -/
def KernelState.adopt (k : KernelState) (self : PcbPtr) (pcb : Pcb) (priority : Level) (pid : Int) :
    KernelState :=
  { (k.allocate (emptyPcb pcb.pid priority pid)).setPcb self
      { pcb with childPids := pcb.childPids ++ [pid] } with
    allUnreapedPcbVector := k.allUnreapedPcbVector ++ [k.nextPtr] }

/-- The PCBs with these PIDs get init as their parent. -/
def KernelState.orphan (k : KernelState) (pids : List Int) : KernelState :=
  { k with
    pcbs := fun ptr =>
      (k.pcbs ptr).map fun pcb => { pcb with ppid := if pcb.pid ∈ pids then 1 else pcb.ppid } }

section Creation

theorem pidsOf_run (allocated : ∀ ptr ∈ ptrs, ∃ pcb, k.pcbs ptr = some pcb) :
    ∃ pids, pidsOf ptrs k = some (pids, k) := by
  induction ptrs with
  | nil => exact ⟨[], rfl⟩
  | cons ptr rest ih =>
      obtain ⟨pcb, found⟩ := allocated ptr List.mem_cons_self
      obtain ⟨pids, run⟩ := ih fun other later => allocated other (List.mem_cons_of_mem _ later)
      refine ⟨pcb.pid :: pids, ?_⟩
      rw [pidsOf, Prog.bind_of_run (deref_run found), Prog.bind_of_run run]
      rfl

/-- A search that finds no PID has seen all its candidates in use. -/
theorem nextFreePidLoop_fault {used : List Int} {fuel : Nat} {candidate : Int}
    (fault : nextFreePidLoop used fuel candidate k = none) :
    ∀ i : Nat, i < fuel → candidate + i ∈ used := by
  induction fuel generalizing candidate with
  | zero => exact fun i inside => absurd inside (Nat.not_lt_zero i)
  | succ fuel ih =>
      by_cases taken : candidate ∈ used
      · simp only [nextFreePidLoop, taken, ↓reduceIte] at fault
        intro i inside
        cases i with
        | zero => simpa using taken
        | succ i =>
            have later := ih fault i (by omega)
            rwa [show candidate + ((i + 1 : Nat) : Int) = candidate + 1 + i by omega]
      · simp only [nextFreePidLoop, taken, ↓reduceIte, Prog.pure_run] at fault
        cases fault

/-- There is always a free PID, among the candidates that are one more than the PCBs. -/
theorem getNextFreePid_ends (allocated : ∀ ptr ∈ k.allUnreapedPcbVector, ∃ pcb, k.pcbs ptr = some pcb) :
    ∃ pid, getNextFreePid k = some (pid, k) := by
  obtain ⟨used, read⟩ := pidsOf_run allocated
  rw [getNextFreePid, Prog.get_bind, Prog.bind_of_run read]
  cases result : nextFreePidLoop used (used.length + 1) 3 k with
  | some found =>
      obtain ⟨pid, k'⟩ := found
      obtain ⟨rfl, _⟩ := nextFreePidLoop_inv result
      exact ⟨pid, rfl⟩
  | none =>
      have all := nextFreePidLoop_fault result
      have distinct : ((List.range (used.length + 1)).map fun i : Nat => (3 : Int) + i).Nodup :=
        List.nodup_range.map fun i j same => by omega
      have subset : ((List.range (used.length + 1)).map fun i : Nat => (3 : Int) + i) ⊆ used := by
        intro pid member
        obtain ⟨i, inside, rfl⟩ := List.mem_map.mp member
        exact all i (List.mem_range.mp inside)
      have length := (distinct.subperm subset).length_le
      simp only [List.length_map, List.length_range] at length
      omega

theorem getNextFreePid_run (roster : Roster k) : ∃ pid, getNextFreePid k = some (pid, k) :=
  getNextFreePid_ends roster.allocated

theorem adopt_pcbs (k : KernelState) (self : PcbPtr) (pcb : Pcb) (priority : Level) (pid : Int)
    (other : PcbPtr) : (k.adopt self pcb priority pid).pcbs other =
      if other = self then some { pcb with childPids := pcb.childPids ++ [pid] }
      else if other = k.nextPtr then some (emptyPcb pcb.pid priority pid) else k.pcbs other := by
  show ((k.allocate _).setPcb self _).pcbs other = _
  rw [setPcb_pcbs, allocate_pcbs]

theorem adopt_self (k : KernelState) (self : PcbPtr) (pcb : Pcb) (priority : Level) (pid : Int) :
    (k.adopt self pcb priority pid).pcbs self = some { pcb with childPids := pcb.childPids ++ [pid] } := by
  rw [adopt_pcbs, if_pos rfl]

theorem adopt_new (apart : self ≠ k.nextPtr) :
    (k.adopt self pcb priority pid).pcbs k.nextPtr = some (emptyPcb pcb.pid priority pid) := by
  rw [adopt_pcbs, if_neg (Ne.symm apart), if_pos rfl]

theorem adopt_old {other : PcbPtr} (apart : other ≠ self) (old : other ≠ k.nextPtr) :
    (k.adopt self pcb priority pid).pcbs other = k.pcbs other := by
  rw [adopt_pcbs, if_neg apart, if_neg old]

theorem pcbInitEmpty_inv (roster : Roster k) (run : pcbInitEmpty self priority pid k = some (new, k')) :
    ∃ pcb, k.pcbs self = some pcb ∧ pcb.childPids.length < numChildrenMax ∧ new = k.nextPtr ∧
      k' = (k.allocate (emptyPcb pcb.pid priority pid)).setPcb self
        { pcb with childPids := pcb.childPids ++ [pid] } := by
  obtain ⟨pcb, k₁, read, run⟩ := Prog.bind_inv run
  obtain ⟨found, rfl⟩ := deref_inv read
  simp only [Prog.get_bind, Prog.modify_bind] at run
  obtain ⟨_, k₂, added, run⟩ := Prog.bind_inv run
  simp only [Prog.pure_run, Option.some.injEq, Prod.mk.injEq] at run
  obtain ⟨rfl, rfl⟩ := run
  obtain ⟨pcb₁, k₃, read₁, added⟩ := Prog.bind_inv added
  obtain ⟨found₁, rfl⟩ := deref_inv read₁
  rw [allocate_pcbs, if_neg (Nat.ne_of_lt (roster.bounded self pcb found)), found] at found₁
  obtain rfl := Option.some.inj found₁
  obtain ⟨_, k₄, checked, added⟩ := Prog.bind_inv added
  obtain ⟨room, rfl⟩ := require_inv checked
  simp only [Prog.modify_run, Option.some.injEq, Prod.mk.injEq, true_and] at added
  exact ⟨pcb, found, room, rfl, added.symm⟩

theorem kProcCreate_inv (roster : Roster k) (run : kProcCreate self priority k = some (new, k')) :
    ∃ pcb pid, k.pcbs self = some pcb ∧ pcb.thrd = .live ∧ self ∈ k.allUnreapedPcbVector ∧
      pcb.childPids.length < numChildrenMax ∧ getNextFreePid k = some (pid, k) ∧ new = k.nextPtr ∧
      k' = k.adopt self pcb priority pid := by
  obtain ⟨pcb, k₁, called, run⟩ := Prog.bind_inv run
  obtain ⟨found, live, listed, rfl⟩ := asCaller_inv called
  obtain ⟨pid, k₂, chosen, run⟩ := Prog.bind_inv run
  obtain ⟨rfl, _⟩ := getNextFreePid_above chosen
  obtain ⟨new₁, k₃, made, run⟩ := Prog.bind_inv run
  obtain ⟨pcb₁, found₁, room, rfl, rfl⟩ := pcbInitEmpty_inv roster made
  obtain rfl := Option.some.inj (found.symm.trans found₁)
  simp only [pcbVecPushBack, Prog.modify_bind, Prog.pure_run, Option.some.injEq, Prod.mk.injEq] at run
  exact ⟨pcb, pid, found, live, listed, room, chosen, run.1.symm, run.2.symm⟩

/-- `k_proc_create` by a process with room for another child. -/
theorem kProcCreate_run (roster : Roster k) (found : k.pcbs self = some pcb) (live : pcb.thrd = .live)
    (listed : self ∈ k.allUnreapedPcbVector) (room : pcb.childPids.length < numChildrenMax)
    (chosen : getNextFreePid k = some (pid, k)) :
    kProcCreate self priority k = some (k.nextPtr, k.adopt self pcb priority pid) := by
  have found₁ : (k.allocate (emptyPcb pcb.pid priority pid)).pcbs self = some pcb := by
    rw [allocate_pcbs, if_neg (Nat.ne_of_lt (roster.bounded self pcb found)), found]
  have added : pcbAddChildPid self pid (k.allocate (emptyPcb pcb.pid priority pid)) =
      some ((), (k.allocate (emptyPcb pcb.pid priority pid)).setPcb self
        { pcb with childPids := pcb.childPids ++ [pid] }) := by
    rw [pcbAddChildPid, Prog.bind_of_run (deref_run found₁), require, if_pos room]
    rfl
  have made : pcbInitEmpty self priority pid k = some (k.nextPtr,
      (k.allocate (emptyPcb pcb.pid priority pid)).setPcb self
        { pcb with childPids := pcb.childPids ++ [pid] }) := by
    rw [pcbInitEmpty, Prog.bind_of_run (deref_run found), Prog.get_bind, Prog.modify_bind,
      Prog.bind_of_run added]
    rfl
  rw [kProcCreate, Prog.bind_of_run (asCaller_run found live listed), Prog.bind_of_run chosen,
    Prog.bind_of_run made]
  rfl

theorem adopt_table (table : Table k) (found : k.pcbs self = some pcb) (unused : Unused k pid)
    (shell : pid = shellPid → k.shellSpawned = true) : Table (k.adopt self pcb priority pid) := by
  have apart : self ≠ k.nextPtr := Nat.ne_of_lt (table.bounded self pcb found)
  have old : ∀ other otherPcb, (k.adopt self pcb priority pid).pcbs other = some otherPcb →
      (other = k.nextPtr ∧ otherPcb.pid = pid) ∨
        ∃ before, k.pcbs other = some before ∧ otherPcb.pid = before.pid := by
    intro other otherPcb here
    rw [adopt_pcbs] at here
    split at here
    · next same =>
        cases here
        exact .inr ⟨pcb, same ▸ found, rfl⟩
    · split at here
      · next same =>
          cases here
          exact .inl ⟨same, rfl⟩
      · exact .inr ⟨otherPcb, here, rfl⟩
  constructor
  · intro other otherPcb here
    rcases old other otherPcb here with ⟨rfl, _⟩ | ⟨before, was, _⟩
    · exact Nat.lt_succ_self _
    · exact Nat.lt_succ_of_lt (table.bounded other before was)
  · intro other otherPcb here
    rcases old other otherPcb here with ⟨rfl, _⟩ | ⟨before, was, _⟩
    · exact List.mem_append_right _ (List.mem_singleton_self _)
    · exact List.mem_append_left _ (table.listed other before was)
  · intro other member
    by_cases isSelf : other = self
    · subst isSelf
      exact ⟨_, adopt_self k other pcb priority pid⟩
    by_cases isNew : other = k.nextPtr
    · subst isNew
      exact ⟨_, adopt_new apart⟩
    rcases List.mem_append.mp member with listed | fresh
    · obtain ⟨before, was⟩ := table.allocated other listed
      exact ⟨before, (adopt_old isSelf isNew).trans was⟩
    · exact absurd (List.mem_singleton.mp fresh) isNew
  · refine List.nodup_append.mpr ⟨table.distinct, List.nodup_singleton _, ?_⟩
    rintro other listed fresh member rfl
    obtain rfl := List.mem_singleton.mp member
    exact table.fresh listed
  · intro first second firstPcb secondPcb here here' same
    rcases old first firstPcb here with ⟨isNew, isPid⟩ | ⟨before, was, was'⟩
    · rcases old second secondPcb here' with ⟨isNew', _⟩ | ⟨before, was, was'⟩
      · exact isNew.trans isNew'.symm
      · exact absurd (was'.symm.trans (same.symm.trans isPid)) (unused second before was)
    · rcases old second secondPcb here' with ⟨_, isPid⟩ | ⟨before₁, was₁, was₁'⟩
      · exact absurd (was'.symm.trans (same.trans isPid)) (unused first before was)
      · exact table.pids first second before before₁ was was₁ (was'.symm.trans (same.trans was₁'))
  · intro other otherPcb here isShell
    rcases old other otherPcb here with ⟨_, isPid⟩ | ⟨before, was, was'⟩
    · exact shell (isPid.symm.trans isShell)
    · exact table.shell other before was (was'.symm.trans isShell)

/-- `thrd_init_fn` makes the shell and starts it. -/
theorem spawnShell_inv (roster : Roster k) (run : spawnShell self k = some ((), k')) :
    ∃ pcb, k.pcbs self = some pcb ∧ pcb.thrd = .live ∧ k.shellSpawned = false ∧
      SameKin (k.setShellSpawned.adopt self pcb 0 shellPid) k' := by
  obtain ⟨pcb, k₁, called, run⟩ := Prog.bind_inv run
  obtain ⟨found, live, _, rfl⟩ := asCaller_inv called
  rw [Prog.get_bind] at run
  obtain ⟨_, k₂, checked, run⟩ := Prog.bind_inv run
  obtain ⟨⟨_, notSpawned⟩, rfl⟩ := require_inv checked
  rw [Prog.modify_bind] at run
  obtain ⟨shell, k₃, made, run⟩ := Prog.bind_inv run
  have roster' : Roster k.setShellSpawned := Enrols.of_same (k := k) rfl rfl rfl roster
  obtain ⟨pcb₁, found₁, _, rfl, rfl⟩ := pcbInitEmpty_inv roster' made
  obtain rfl := Option.some.inj (found.symm.trans found₁)
  refine ⟨pcb, found, live, notSpawned, ?_⟩
  obtain ⟨_, k₄, started, run⟩ := Prog.bind_inv run
  obtain ⟨shellPcb, shellFound, rfl⟩ := update_inv started
  have apart : self ≠ k.nextPtr := Nat.ne_of_lt (roster.bounded self pcb found)
  have isNew : shellPcb = emptyPcb pcb.pid 0 shellPid := by
    have new : (k.setShellSpawned.adopt self pcb 0 shellPid).pcbs k.nextPtr =
        some (emptyPcb pcb.pid 0 shellPid) := adopt_new (k := k.setShellSpawned) apart
    exact Option.some.inj (shellFound.symm.trans new)
  have begins : SameKin (k.setShellSpawned.adopt self pcb 0 shellPid)
      ((k.setShellSpawned.adopt self pcb 0 shellPid).setPcb k.nextPtr
        { shellPcb with thrd := .live, status := .running }) := by
    refine .setPcb (adopt_new (k := k.setShellSpawned) apart) ?_
    rw [isNew]
    exact ⟨rfl, rfl, rfl, fun dead => absurd dead (not_or.mpr ⟨nofun, nofun⟩), nofun⟩
  have rest : Keeps SameKin (do
      pcbQueuePush 0 k.nextPtr
      update self fun pcb => { pcb with status := .blocked }
      Prog.modify fun k₅ => k₅.setPending (.initJoin self k.nextPtr :: k₅.pending)) :=
    .bind pcbQueuePush_sameKin fun _ =>
      .bind (update_sameKin fun _ => .of_status ⟨rfl, rfl, rfl, rfl⟩ ⟨nofun, nofun⟩) fun _ =>
      setPending_sameKin _
  rw [pcbVecPushBack, Prog.modify_bind] at run
  exact IsTrans.trans _ _ _ begins (rest _ _ _ run)

end Creation

section Disconnection

/-- A search by PID finds the PCB that has the PID. -/
theorem seekByPid_run (allocated : ∀ ptr ∈ ptrs, ∃ pcb, k.pcbs ptr = some pcb)
    (only : ∀ ptr pcb other otherPcb, k.pcbs ptr = some pcb → k.pcbs other = some otherPcb →
      pcb.pid = otherPcb.pid → ptr = other)
    (member : target ∈ ptrs) (found : k.pcbs target = some pcb) :
    seekByPid pcb.pid ptrs k = some (some target, k) := by
  induction ptrs with
  | nil => exact absurd member List.not_mem_nil
  | cons ptr rest ih =>
      obtain ⟨first, firstFound⟩ := allocated ptr List.mem_cons_self
      rw [seekByPid, Prog.bind_of_run (deref_run firstFound)]
      by_cases same : first.pid = pcb.pid
      · rw [if_pos same, only ptr first target pcb firstFound found same]
        rfl
      · rw [if_neg same]
        have later : target ∈ rest := by
          rcases List.mem_cons.mp member with rfl | later
          · obtain rfl := Option.some.inj (found.symm.trans firstFound)
            exact absurd rfl same
          · exact later
        exact ih (fun other later => allocated other (List.mem_cons_of_mem _ later)) later

theorem seekByPid_none (allocated : ∀ ptr ∈ ptrs, ∃ pcb, k.pcbs ptr = some pcb)
    (unused : Unused k pid) : seekByPid pid ptrs k = some (none, k) := by
  induction ptrs with
  | nil => rfl
  | cons ptr rest ih =>
      obtain ⟨first, firstFound⟩ := allocated ptr List.mem_cons_self
      rw [seekByPid, Prog.bind_of_run (deref_run firstFound), if_neg (unused ptr first firstFound)]
      exact ih fun other later => allocated other (List.mem_cons_of_mem _ later)

theorem seek_run (table : Table k) (found : k.pcbs target = some pcb) :
    pcbVecSeekPcbByPid pcb.pid k = some (some target, k) :=
  seekByPid_run table.allocated (fun ptr pcb other otherPcb => table.pids ptr other pcb otherPcb)
    (table.listed target pcb found) found

theorem seek_none (table : Table k) (unused : Unused k pid) :
    pcbVecSeekPcbByPid pid k = some (none, k) := seekByPid_none table.allocated unused

theorem orphan_pcbs (k : KernelState) (pids : List Int) (ptr : PcbPtr) : (k.orphan pids).pcbs ptr =
    (k.pcbs ptr).map fun pcb => { pcb with ppid := if pcb.pid ∈ pids then 1 else pcb.ppid } := rfl

theorem orphan_eq (same : ∀ ptr, (k.orphan pids).pcbs ptr = k.pcbs ptr) : k.orphan pids = k :=
  congrArg (fun pcbs => { k with pcbs := pcbs }) (funext same)

theorem orphan_nil (k : KernelState) : k.orphan [] = k := by
  refine orphan_eq fun ptr => ?_
  rw [orphan_pcbs]
  cases k.pcbs ptr with
  | none => rfl
  | some pcb => simp only [List.not_mem_nil, ↓reduceIte, Option.map_some]

theorem orphan_orphan (k : KernelState) (pid : Int) (pids : List Int) :
    (k.orphan [pid]).orphan pids = k.orphan (pid :: pids) := by
  have pcbs : ((k.orphan [pid]).orphan pids).pcbs = (k.orphan (pid :: pids)).pcbs := by
    funext ptr
    rw [orphan_pcbs, orphan_pcbs, orphan_pcbs]
    cases k.pcbs ptr with
    | none => rfl
    | some pcb =>
        have parent : (if pcb.pid ∈ pids then 1 else if pcb.pid ∈ [pid] then 1 else pcb.ppid) =
            if pcb.pid ∈ pid :: pids then 1 else pcb.ppid := by
          by_cases here : pcb.pid = pid
          · rw [if_pos (List.mem_singleton.mpr here), ite_self,
              if_pos (List.mem_cons.mpr (.inl here))]
          · rw [if_neg fun member => here (List.mem_singleton.mp member),
              if_congr (show pcb.pid ∈ pid :: pids ↔ pcb.pid ∈ pids from
                List.mem_cons.trans (or_iff_right here)) rfl rfl]
        exact congrArg (fun ppid => some { pcb with ppid := ppid }) parent
  exact congrArg (fun pcbs => { k with pcbs := pcbs }) pcbs

theorem orphan_table (table : Table k) (pids : List Int) : Table (k.orphan pids) := by
  have was : ∀ ptr pcb', (k.orphan pids).pcbs ptr = some pcb' →
      ∃ pcb, k.pcbs ptr = some pcb ∧ pcb'.pid = pcb.pid := by
    intro ptr pcb' found
    obtain ⟨pcb, before, rfl⟩ := Option.map_eq_some_iff.mp found
    exact ⟨pcb, before, rfl⟩
  constructor
  · intro ptr pcb' found
    obtain ⟨pcb, before, _⟩ := was ptr pcb' found
    exact table.bounded ptr pcb before
  · intro ptr pcb' found
    obtain ⟨pcb, before, _⟩ := was ptr pcb' found
    exact table.listed ptr pcb before
  · intro ptr member
    obtain ⟨pcb, found⟩ := table.allocated ptr member
    exact ⟨_, by rw [orphan_pcbs, found, Option.map_some]⟩
  · exact table.distinct
  · intro first second pcb pcb' found found' same
    obtain ⟨before, here, pid⟩ := was first pcb found
    obtain ⟨before', here', pid'⟩ := was second pcb' found'
    exact table.pids first second before before' here here' (pid.symm.trans (same.trans pid'))
  · intro ptr pcb' found isShell
    obtain ⟨pcb, before, pid⟩ := was ptr pcb' found
    exact table.shell ptr pcb before (pid.symm.trans isShell)

/-- The PCB with a PID gets init as its parent. -/
theorem setPcb_orphan (table : Table k) (found : k.pcbs target = some pcb) :
    k.setPcb target { pcb with ppid := 1 } = k.orphan [pcb.pid] := by
  have pcbs : (k.setPcb target { pcb with ppid := 1 }).pcbs = (k.orphan [pcb.pid]).pcbs := by
    funext ptr
    rw [setPcb_pcbs, orphan_pcbs]
    by_cases here : ptr = target
    · rw [if_pos here, here, found, Option.map_some, if_pos (List.mem_singleton_self _)]
    · rw [if_neg here]
      cases other : k.pcbs ptr with
      | none => rfl
      | some otherPcb =>
          have apart : otherPcb.pid ∉ [pcb.pid] := fun member =>
            here (table.pids ptr target otherPcb pcb other found (List.mem_singleton.mp member))
          rw [Option.map_some, if_neg apart]
  exact congrArg (fun pcbs => { k with pcbs := pcbs }) pcbs

theorem disconnectLoop_run (table : Table k) (pids : List Int) :
    disconnectLoop pids k = some ((), k.orphan pids) := by
  induction pids generalizing k with
  | nil => exact congrArg (fun k' => some ((), k')) (orphan_nil k).symm
  | cons pid rest ih =>
      rw [disconnectLoop, ← orphan_orphan]
      by_cases used : ∃ target pcb, k.pcbs target = some pcb ∧ pcb.pid = pid
      · obtain ⟨target, pcb, found, rfl⟩ := used
        rw [Prog.bind_of_run (seek_run table found)]
        have parent : update target (fun pcb => { pcb with ppid := 1 }) k =
            some ((), k.orphan [pcb.pid]) := by
          rw [update_run found, setPcb_orphan table found]
        show (update target _ >>= fun _ => disconnectLoop rest) k = _
        rw [Prog.bind_of_run parent]
        exact ih (orphan_table table [pcb.pid])
      · have unused : Unused k pid := fun ptr pcb found same => used ⟨ptr, pcb, found, same⟩
        have same : k.orphan [pid] = k := by
          refine orphan_eq fun ptr => ?_
          rw [orphan_pcbs]
          cases found : k.pcbs ptr with
          | none => rfl
          | some pcb =>
              have apart : pcb.pid ∉ [pid] := fun member =>
                unused ptr pcb found (List.mem_singleton.mp member)
              rw [Option.map_some, if_neg apart]
        rw [Prog.bind_of_run (seek_none table unused), same]
        exact ih table

/-- The children of `target` get init as their parent, and its list is empty. -/
structure Disowns (k : KernelState) (target : PcbPtr) (pcb : Pcb) (k' : KernelState) : Prop where
  vector : k'.allUnreapedPcbVector = k.allUnreapedPcbVector
  nextPtr : k'.nextPtr = k.nextPtr
  others : ∀ ptr, ptr ≠ target → k'.pcbs ptr = (k.pcbs ptr).map fun other =>
    { other with ppid := if other.pid ∈ pcb.childPids then 1 else other.ppid }
  ended : ∃ pcb', k'.pcbs target = some pcb' ∧ pcb'.pid = pcb.pid ∧ pcb'.childPids = [] ∧
    pcb'.thrd = .ended ∧ pcb'.ppid = if pcb.pid ∈ pcb.childPids then 1 else pcb.ppid

theorem pcbDisconnectChild_run (table : Table k) (found : k.pcbs target = some pcb) :
    pcbDisconnectChild target k = some ((), (k.orphan pcb.childPids).setPcb target
      { pcb with ppid := if pcb.pid ∈ pcb.childPids then 1 else pcb.ppid, childPids := [] }) := by
  have orphaned : (k.orphan pcb.childPids).pcbs target =
      some { pcb with ppid := if pcb.pid ∈ pcb.childPids then 1 else pcb.ppid } := by
    rw [orphan_pcbs, found, Option.map_some]
  rw [pcbDisconnectChild, Prog.bind_of_run (deref_run found),
    Prog.bind_of_run (disconnectLoop_run table pcb.childPids), update_run orphaned]

/-- `pcb_disconnect_child` on a PCB with fields changed that are not about its family. -/
theorem disconnect_disowns {own last : Pcb}
    (kin : own.pid = pcb.pid ∧ own.ppid = pcb.ppid ∧ own.childPids = pcb.childPids)
    (after : last.pid = own.pid ∧ last.childPids = [] ∧ last.thrd = .ended ∧
      last.ppid = if own.pid ∈ own.childPids then 1 else own.ppid) :
    Disowns k target pcb (((k.setPcb target own).orphan own.childPids).setPcb target last) := by
  refine ⟨rfl, rfl, fun ptr apart => ?_, last, by rw [setPcb_pcbs, if_pos rfl],
    after.1.trans kin.1, after.2.1, after.2.2.1, ?_⟩
  · rw [setPcb_pcbs, if_neg apart, orphan_pcbs, setPcb_pcbs, if_neg apart, kin.2.2]
  · rw [after.2.2.2, kin.1, kin.2.1, kin.2.2]

theorem setPcb_setPcb (k : KernelState) (ptr : PcbPtr) (pcb pcb' : Pcb) :
    (k.setPcb ptr pcb).setPcb ptr pcb' = k.setPcb ptr pcb' := by
  simp only [KernelState.setPcb, Function.update_idem]

/-- `k_exit` -/
theorem kExit_disowns (table : Table k) (run : kExit self k = some ((), k')) :
    ∃ pcb, k.pcbs self = some pcb ∧ pcb.thrd = .live ∧ Disowns k self pcb k' := by
  obtain ⟨pcb, k₁, called, run⟩ := Prog.bind_inv run
  obtain ⟨found, live, _, rfl⟩ := asCaller_inv called
  obtain ⟨_, k₂, died, run⟩ := Prog.bind_inv run
  have table₂ := table.of_same
    (quiet_of_update died fun _ => ⟨rfl, rfl, rfl, id⟩).toSamePids
  obtain ⟨pcb₁, found₁, rfl⟩ := update_inv died
  obtain rfl := Option.some.inj (found.symm.trans found₁)
  rw [Prog.bind_of_run (pcbDisconnectChild_run table₂ (by rw [setPcb_pcbs, if_pos rfl]))] at run
  obtain ⟨pcb₂, found₂, rfl⟩ := update_inv run
  rw [setPcb_pcbs, if_pos rfl] at found₂
  obtain rfl := Option.some.inj found₂
  rw [setPcb_setPcb]
  exact ⟨pcb, found, live, disconnect_disowns ⟨rfl, rfl, rfl⟩ ⟨rfl, rfl, rfl, rfl⟩⟩

/-- What `k_kill` does to families: only a process terminated by another one loses its children. -/
theorem kKill_disowns {sig : Int} (table : Table k) (run : kKill self pid sig k = some ((), k')) :
    (∃ target pcb, k.pcbs target = some pcb ∧ pcb.pid = pid ∧ target ≠ self ∧ sig = pSigterm ∧
        pcb.status ≠ .zombie ∧ pcb.thrd ≠ .absent ∧ Disowns k target pcb k') ∨
      SameKin k k' ∧ ∀ target pcb, k.pcbs target = some pcb → pcb.pid = pid → sig = pSigterm →
        target = self ∨ pcb.status = .zombie := by
  obtain ⟨selfPcb, k₁, called, run⟩ := Prog.bind_inv run
  obtain ⟨selfFound, live, _, rfl⟩ := asCaller_inv called
  obtain ⟨result, k₂, searched, run⟩ := Prog.bind_inv run
  by_cases used : ∃ target pcb, k.pcbs target = some pcb ∧ pcb.pid = pid
  swap
  · have unused : Unused k pid := fun ptr pcb found same => used ⟨ptr, pcb, found, same⟩
    rw [seek_none table unused] at searched
    cases searched
    cases run
    exact .inr ⟨Std.Refl.refl k, fun target pcb found same _ => absurd same (unused target pcb found)⟩
  obtain ⟨target, pcb, found, rfl⟩ := used
  rw [seek_run table found] at searched
  cases searched
  have only : ∀ other otherPcb, k.pcbs other = some otherPcb → otherPcb.pid = pcb.pid →
      other = target ∧ otherPcb = pcb := by
    intro other otherPcb here same
    obtain rfl := table.pids other target otherPcb pcb here found same
    exact ⟨rfl, Option.some.inj (here.symm.trans found)⟩
  obtain ⟨pcb₁, k₃, read, run⟩ := Prog.bind_inv run
  obtain ⟨found₁, rfl⟩ := deref_inv read
  obtain rfl := Option.some.inj (found.symm.trans found₁)
  by_cases isTerm : sig = pSigterm
  swap
  · refine .inr ⟨?_, fun _ _ _ _ same => absurd same isTerm⟩
    rw [if_neg isTerm] at run
    refine (?_ : Keeps SameKin _) _ _ _ run
    refine .ite (fun _ => .ite (fun _ => .bind require_sameKin fun _ => .ite
      (fun _ => setPending_sameKin _) fun _ => update_sameKin fun _ => ?_) fun _ => .pure _)
      fun _ => .ite (fun _ => .ite (fun _ => update_sameKin fun _ => ?_) fun _ => .pure _)
        fun _ => .pure _
    · exact .of_status ⟨rfl, rfl, rfl, rfl⟩ ⟨nofun, nofun⟩
    · exact .of_status ⟨rfl, rfl, rfl, rfl⟩ ⟨nofun, nofun⟩
  subst isTerm
  rw [if_neg (by decide), if_neg (by decide), if_pos rfl] at run
  by_cases zombie : pcb.status = .zombie
  · rw [if_neg (not_not.mpr zombie)] at run
    cases run
    refine .inr ⟨Std.Refl.refl k, fun other otherPcb here same _ => .inr ?_⟩
    rw [(only other otherPcb here same).2]
    exact zombie
  rw [if_pos zombie] at run
  obtain ⟨_, k₄, checked, run⟩ := Prog.bind_inv run
  obtain ⟨present, rfl⟩ := require_inv checked
  obtain ⟨_, k₅, cancelled, run⟩ := Prog.bind_inv run
  have table₅ := table.of_same
    (quiet_of_update cancelled fun _ => ⟨rfl, rfl, rfl, fun _ => nofun⟩).toSamePids
  obtain ⟨pcb₂, found₂, rfl⟩ := update_inv cancelled
  obtain rfl := Option.some.inj (found.symm.trans found₂)
  by_cases own : target = self
  · rw [if_neg (not_not.mpr own)] at run
    cases run
    exact .inr ⟨.setPcb found (.of_same ⟨rfl, rfl, rfl, rfl⟩ fun _ => rfl),
      fun other otherPcb here same _ => .inl ((only other otherPcb here same).1.trans own)⟩
  · rw [if_pos own] at run
    obtain ⟨_, k₆, died, run⟩ := Prog.bind_inv run
    have table₆ := table₅.of_same
      (quiet_of_update died fun _ => ⟨rfl, rfl, rfl, id⟩).toSamePids
    obtain ⟨pcb₃, found₃, rfl⟩ := update_inv died
    rw [setPcb_pcbs, if_pos rfl] at found₃
    obtain rfl := Option.some.inj found₃
    rw [setPcb_setPcb] at run table₆
    rw [pcbDisconnectChild_run table₆ (by rw [setPcb_pcbs, if_pos rfl])] at run
    cases run
    exact .inl ⟨target, pcb, found, rfl, own, rfl, zombie, present,
      disconnect_disowns ⟨rfl, rfl, rfl⟩ ⟨rfl, rfl, rfl, rfl⟩⟩

end Disconnection

end PennOs.Kernel
