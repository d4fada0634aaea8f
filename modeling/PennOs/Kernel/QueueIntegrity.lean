import Mathlib.Data.List.Perm.Subperm
import PennOs.Kernel.QueueTable

set_option autoImplicit false

/- The ready queues in every run. -/
namespace PennOs.Kernel

open LinkedChain (Links Forest)

variable {k k' k'' : KernelState} {ptr self : PcbPtr} {level : Level}
  {lists : Level → List PcbPtr}

/-- Each queue's links visit `length` distinct PCBs and end at `q_end_ptr`, and no PCB is in two
queues. -/
structure QueueIntegrity (k : KernelState) (lists : Level → List PcbPtr) : Prop where
  visits : ∀ level, Links k.next (k.priorityQueueArray level).qHeadPtr (lists level)
  allocated : ∀ level, ∀ ptr ∈ lists level, ∃ pcb, k.pcbs ptr = some pcb
  distinct : ∀ level, (lists level).Nodup
  length : ∀ level, (lists level).length = (k.priorityQueueArray level).length
  last : ∀ level, (lists level).getLast? = (k.priorityQueueArray level).qEndPtr
  apart : ∀ level other ptr, ptr ∈ lists level → ptr ∈ lists other → level = other

theorem Orderly.integrity (orderly : Orderly k lists) : QueueIntegrity k lists where
  visits := orderly.intact.forest.links
  allocated := orderly.placed.allocated
  distinct level := (orderly.intact.forest.links level).nodup
  length level := (orderly.intact.length level).symm
  last level := (orderly.intact.last level).symm
  apart := orderly.intact.forest.apart

section Pushes

theorem mem_pushed {member : PcbPtr} (here : member ∈ pushed lists level ptr level) :
    member ∈ lists level ∨ member = ptr := by
  rw [pushed] at here
  split at here
  · exact .inl here
  · rw [Function.update_self] at here
    simpa using here

theorem pushed_of_ne {other : Level} (apart : other ≠ level) :
    pushed lists level ptr other = lists other := by
  rw [pushed]
  split
  · rfl
  · rw [Function.update_of_ne apart]

theorem pushed_head {first : PcbPtr} {other : Level} (head : (lists other).head? = some first) :
    (pushed lists level ptr other).head? = some first := by
  rw [pushed]
  split
  · exact head
  · by_cases here : other = level
    · subst here
      rw [Function.update_self, List.head?_append, head]
      rfl
    · rwa [Function.update_of_ne here]

/-- Pushing a PCB whose quantum does not run onto the queue of its priority. -/
theorem pcbQueuePush_orderly {pcb : Pcb} (orderly : Orderly k lists)
    (found : k.pcbs ptr = some pcb) (idle : ∀ other, k.quantum ≠ some (other, ptr))
    (run : pcbQueuePush pcb.priorityLevel ptr k = some ((), k')) :
    Orderly k' (pushed lists pcb.priorityLevel ptr) := by
  have same := SameTable.of_sameButLinks (pcbQueuePush_frame run)
  have elsewhere : ∀ other, other ≠ pcb.priorityLevel → ptr ∉ lists other := by
    intro other apart member
    rcases orderly.placed.level other ptr pcb member found with here | running
    · exact apart here.symm
    · exact idle other running
  have placed : Placed k (pushed lists pcb.priorityLevel ptr) := by
    refine ⟨fun other node member => ?_, fun other node nodePcb member nodeFound => ?_,
      fun other node running => ?_⟩
    · by_cases here : other = pcb.priorityLevel
      · subst here
        rcases mem_pushed member with old | rfl
        · exact orderly.placed.allocated _ node old
        · exact ⟨pcb, found⟩
      · rw [pushed_of_ne here] at member
        exact orderly.placed.allocated other node member
    · by_cases here : other = pcb.priorityLevel
      · subst here
        rcases mem_pushed member with old | rfl
        · exact orderly.placed.level _ node nodePcb old nodeFound
        · exact .inl (by rw [Option.some.inj (found.symm.trans nodeFound)])
      · rw [pushed_of_ne here] at member
        exact orderly.placed.level other node nodePcb member nodeFound
    · obtain ⟨head, thread⟩ := orderly.placed.running other node running
      exact ⟨pushed_head head, thread⟩
  exact ⟨pcbQueuePush_intact orderly.intact elsewhere run, orderly.table.of_same same.toSamePids,
    placed.of_same same⟩

end Pushes

section Creation

/-- A PCB was allocated and nothing else happened that the queues notice. -/
structure Born (k k' : KernelState) (pid : Int) (priority : Level) : Prop where
  vector : k'.allUnreapedPcbVector = k.allUnreapedPcbVector
  nextPtr : k'.nextPtr = k.nextPtr + 1
  quantum : k'.quantum = k.quantum
  shellSpawned : k'.shellSpawned = k.shellSpawned
  next : k'.next = k.next
  queues : k'.priorityQueueArray = k.priorityQueueArray
  new : ∃ pcb, k'.pcbs k.nextPtr = some pcb ∧ pcb.pid = pid ∧ pcb.priorityLevel = priority
  was : ∀ ptr pcb', ptr ≠ k.nextPtr → k'.pcbs ptr = some pcb' → ∃ pcb, k.pcbs ptr = some pcb ∧
    pcb'.pid = pcb.pid ∧ pcb'.priorityLevel = pcb.priorityLevel
  kept : ∀ ptr pcb, k.pcbs ptr = some pcb → ∃ pcb', k'.pcbs ptr = some pcb' ∧
    (pcb.thrd ≠ .absent → pcb'.thrd ≠ .absent)

/-- No PCB has this PID. -/
def Unused (k : KernelState) (pid : Int) : Prop :=
  ∀ ptr pcb, k.pcbs ptr = some pcb → pcb.pid ≠ pid

theorem Table.next_free (table : Table k) : k.pcbs k.nextPtr = none := by
  cases found : k.pcbs k.nextPtr with
  | none => rfl
  | some pcb => exact absurd (table.bounded _ pcb found) (Nat.lt_irrefl _)

theorem Table.fresh (table : Table k) : k.nextPtr ∉ k.allUnreapedPcbVector := by
  intro member
  obtain ⟨pcb, found⟩ := table.allocated _ member
  rw [table.next_free] at found
  cases found

theorem Born.quiet {pid : Int} {priority : Level} (born : Born k k' pid priority)
    (quiet : Quiet k' k'') : Born k k'' pid priority where
  vector := quiet.vector.trans born.vector
  nextPtr := quiet.nextPtr.trans born.nextPtr
  quantum := quiet.quantum.trans born.quantum
  shellSpawned := quiet.shellSpawned.trans born.shellSpawned
  next := quiet.next.trans born.next
  queues := quiet.queues.trans born.queues
  new := by
    obtain ⟨pcb, found, pid, priority⟩ := born.new
    obtain ⟨pcb', after, _⟩ := quiet.kept _ pcb found
    obtain ⟨pcb1, before, pid'⟩ := quiet.was _ pcb' after
    obtain rfl := Option.some.inj (found.symm.trans before)
    exact ⟨pcb', after, pid'.trans pid, (quiet.priority _ pcb pcb' found after).trans priority⟩
  was ptr pcb'' apart found := by
    obtain ⟨pcb', found', pid'⟩ := quiet.was ptr pcb'' found
    obtain ⟨pcb, before, pid, priority⟩ := born.was ptr pcb' apart found'
    exact ⟨pcb, before, pid'.trans pid, (quiet.priority ptr pcb' pcb'' found' found).trans priority⟩
  kept ptr pcb found := by
    obtain ⟨pcb', found', thread⟩ := born.kept ptr pcb found
    obtain ⟨pcb'', after, thread'⟩ := quiet.kept ptr pcb' found'
    exact ⟨pcb'', after, fun present => thread' (thread present)⟩

theorem allocate_born (pcb : Pcb) (table : Table k) (unlinked : pcb.nextPcbPtr = none) :
    Born k (k.allocate pcb) pcb.pid pcb.priorityLevel where
  vector := rfl
  nextPtr := rfl
  quantum := rfl
  shellSpawned := rfl
  next := by
    funext other
    simp only [KernelState.next, allocate_pcbs]
    split
    · next here => simp [here, table.next_free, unlinked]
    · rfl
  queues := rfl
  new := ⟨pcb, by simp [allocate_pcbs], rfl, rfl⟩
  was ptr pcb' apart found := by
    rw [allocate_pcbs, if_neg apart] at found
    exact ⟨pcb', found, rfl, rfl⟩
  kept ptr pcb' found := by
    have apart : ptr ≠ k.nextPtr := Nat.ne_of_lt (table.bounded ptr pcb' found)
    rw [allocate_pcbs, if_neg apart]
    exact ⟨pcb', found, id⟩

theorem pcbInitEmpty_born {priority : Level} {pid : Int} {new : PcbPtr} (table : Table k)
    (run : pcbInitEmpty self priority pid k = some (new, k')) :
    new = k.nextPtr ∧ Born k k' pid priority := by
  obtain ⟨parentPcb, k1, read, run⟩ := Prog.bind_inv run
  obtain ⟨_, rfl⟩ := deref_inv read
  simp only [Prog.get_bind, Prog.modify_bind] at run
  obtain ⟨_, k2, added, run⟩ := Prog.bind_inv run
  simp only [Prog.pure_run, Option.some.injEq, Prod.mk.injEq] at run
  obtain ⟨rfl, rfl⟩ := run
  have born := allocate_born (emptyPcb parentPcb.pid priority pid) table rfl
  exact ⟨rfl, born.quiet (pcbAddChildPid_quiet _ _ _ added)⟩

/-- The new PCB enters the vector. -/
theorem Born.listed {pid : Int} {priority : Level} (born : Born k k' pid priority)
    (orderly : Orderly k lists) (unused : Unused k pid)
    (shell : pid = shellPid → k.shellSpawned = true)
    (run : pcbVecPushBack k.nextPtr k' = some ((), k'')) : Orderly k'' lists := by
  simp only [pcbVecPushBack, Prog.modify_run, Option.some.injEq, Prod.mk.injEq, true_and] at run
  subst run
  have table := orderly.table
  obtain ⟨newPcb, newFound, newPid, _⟩ := born.new
  have split : ∀ ptr pcb', k'.pcbs ptr = some pcb' →
      (ptr = k.nextPtr ∧ pcb'.pid = pid) ∨
        ∃ pcb, k.pcbs ptr = some pcb ∧ pcb'.pid = pcb.pid := by
    intro ptr pcb' found
    by_cases here : ptr = k.nextPtr
    · subst here
      obtain rfl := Option.some.inj (newFound.symm.trans found)
      exact .inl ⟨rfl, newPid⟩
    · obtain ⟨pcb, before, samePid, _⟩ := born.was ptr pcb' here found
      exact .inr ⟨pcb, before, samePid⟩
  refine ⟨orderly.intact.of_same born.next born.queues, ?_, ?_⟩
  · constructor
    · intro ptr pcb' found
      change ptr < k'.nextPtr
      rw [born.nextPtr]
      rcases split ptr pcb' found with ⟨rfl, _⟩ | ⟨pcb, before, _⟩
      · exact Nat.lt_succ_self _
      · exact Nat.lt_succ_of_lt (table.bounded ptr pcb before)
    · intro ptr pcb' found
      change ptr ∈ k'.allUnreapedPcbVector ++ [k.nextPtr]
      rw [born.vector, List.mem_append, List.mem_singleton]
      rcases split ptr pcb' found with ⟨rfl, _⟩ | ⟨pcb, before, _⟩
      · exact .inr rfl
      · exact .inl (table.listed ptr pcb before)
    · intro ptr member
      change ptr ∈ k'.allUnreapedPcbVector ++ [k.nextPtr] at member
      rw [born.vector, List.mem_append, List.mem_singleton] at member
      rcases member with old | rfl
      · obtain ⟨pcb, found⟩ := table.allocated ptr old
        obtain ⟨pcb', after, _⟩ := born.kept ptr pcb found
        exact ⟨pcb', after⟩
      · exact ⟨newPcb, newFound⟩
    · change (k'.allUnreapedPcbVector ++ [k.nextPtr]).Nodup
      rw [born.vector, List.nodup_append]
      refine ⟨table.distinct, List.nodup_singleton _, fun ptr old other new => ?_⟩
      rintro rfl
      exact table.fresh (List.mem_singleton.mp new ▸ old)
    · intro ptr other pcb' pcb'' found found' equal
      rcases split ptr pcb' found with ⟨rfl, isPid⟩ | ⟨pcb, before, samePid⟩ <;>
        rcases split other pcb'' found' with ⟨rfl, isPid'⟩ | ⟨pcb1, before1, samePid1⟩
      · rfl
      · exact absurd (samePid1.symm.trans (equal.symm.trans isPid)) (unused other pcb1 before1)
      · exact absurd (samePid.symm.trans (equal.trans isPid')) (unused ptr pcb before)
      · exact table.pids ptr other pcb pcb1 before before1
          (samePid.symm.trans (equal.trans samePid1))
    · intro ptr pcb' found isShell
      change k'.shellSpawned = true
      rw [born.shellSpawned]
      rcases split ptr pcb' found with ⟨rfl, isPid⟩ | ⟨pcb, before, samePid⟩
      · exact shell (isPid.symm.trans isShell)
      · exact table.shell ptr pcb before (samePid.symm.trans isShell)
  · have placed := orderly.placed
    constructor
    · intro level ptr member
      obtain ⟨pcb, found⟩ := placed.allocated level ptr member
      obtain ⟨pcb', after, _⟩ := born.kept ptr pcb found
      exact ⟨pcb', after⟩
    · intro level ptr pcb' member found
      obtain ⟨pcb, before⟩ := placed.allocated level ptr member
      have apart : ptr ≠ k.nextPtr := Nat.ne_of_lt (table.bounded ptr pcb before)
      obtain ⟨pcb1, before1, _, priority⟩ := born.was ptr pcb' apart found
      change _ ∨ k'.quantum = some (level, ptr)
      rw [priority, born.quantum]
      exact placed.level level ptr pcb1 member before1
    · intro level ptr running
      change k'.quantum = some (level, ptr) at running
      obtain ⟨first, pcb, found, thread⟩ := placed.running level ptr (born.quantum ▸ running)
      obtain ⟨pcb', after, thread'⟩ := born.kept ptr pcb found
      exact ⟨first, pcb', after, thread' thread⟩

end Creation

section Calls

theorem pidsOf_inv {ptrs : List PcbPtr} {pids : List Int}
    (run : pidsOf ptrs k = some (pids, k')) :
    k = k' ∧ ∀ ptr ∈ ptrs, ∀ pcb, k.pcbs ptr = some pcb → pcb.pid ∈ pids := by
  induction ptrs generalizing pids k' with
  | nil =>
      simp only [pidsOf, Prog.pure_run, Option.some.injEq, Prod.mk.injEq] at run
      exact ⟨run.2, by simp⟩
  | cons ptr rest ih =>
      obtain ⟨pcb, k1, read, run⟩ := Prog.bind_inv run
      obtain ⟨found, rfl⟩ := deref_inv read
      obtain ⟨tail, k2, tailRun, run⟩ := Prog.bind_inv run
      obtain ⟨state, members⟩ := ih tailRun
      subst state
      simp only [Prog.pure_run, Option.some.injEq, Prod.mk.injEq] at run
      obtain ⟨rfl, rfl⟩ := run
      refine ⟨rfl, fun other member otherPcb otherFound => ?_⟩
      rcases List.mem_cons.mp member with rfl | later
      · obtain rfl := Option.some.inj (found.symm.trans otherFound)
        exact List.mem_cons_self
      · exact List.mem_cons_of_mem _ (members other later otherPcb otherFound)

theorem nextFreePidLoop_inv {used : List Int} {fuel : Nat} {candidate pid : Int}
    (run : nextFreePidLoop used fuel candidate k = some (pid, k')) :
    k = k' ∧ pid ∉ used ∧ candidate ≤ pid := by
  induction fuel generalizing candidate with
  | zero => simp [nextFreePidLoop] at run
  | succ fuel ih =>
      by_cases taken : candidate ∈ used
      · simp only [nextFreePidLoop, taken, ↓reduceIte] at run
        obtain ⟨state, free, above⟩ := ih run
        exact ⟨state, free, by omega⟩
      · simp only [nextFreePidLoop, taken, ↓reduceIte, Prog.pure_run, Option.some.injEq,
          Prod.mk.injEq] at run
        obtain ⟨rfl, rfl⟩ := run
        exact ⟨rfl, taken, Int.le_refl _⟩

/-- `get_next_free_pid` finds a PID no PCB has, above those of init and the shell. -/
theorem getNextFreePid_unused {pid : Int} (table : Table k)
    (run : getNextFreePid k = some (pid, k')) : k = k' ∧ Unused k pid ∧ 3 ≤ pid := by
  simp only [getNextFreePid, Prog.get_bind] at run
  obtain ⟨used, k1, read, run⟩ := Prog.bind_inv run
  obtain ⟨rfl, members⟩ := pidsOf_inv read
  obtain ⟨rfl, free, above⟩ := nextFreePidLoop_inv run
  refine ⟨rfl, fun ptr pcb found same => ?_, above⟩
  exact free (same ▸ members ptr (table.listed ptr pcb found) pcb found)

theorem kProcCreate_orderly {priority : Level} (orderly : Orderly k lists)
    (run : kProcCreate self priority k = some (ptr, k')) : Orderly k' lists := by
  obtain ⟨pcb, k1, called, run⟩ := Prog.bind_inv run
  obtain ⟨_, _, _, rfl⟩ := asCaller_inv called
  obtain ⟨pid, k2, chosen, run⟩ := Prog.bind_inv run
  obtain ⟨rfl, unused, above⟩ := getNextFreePid_unused orderly.table chosen
  obtain ⟨new, k3, made, run⟩ := Prog.bind_inv run
  obtain ⟨rfl, born⟩ := pcbInitEmpty_born orderly.table made
  obtain ⟨_, k4, listed, run⟩ := Prog.bind_inv run
  simp only [Prog.pure_run, Option.some.injEq, Prod.mk.injEq] at run
  have notShell : pid ≠ shellPid := by
    simp only [shellPid]
    omega
  exact run.2 ▸ born.listed orderly unused (fun same => absurd same notShell) listed

theorem setShellSpawned_orderly (orderly : Orderly k lists) :
    Orderly k.setShellSpawned lists where
  intact := orderly.intact.of_same rfl rfl
  table := { orderly.table with shell := fun _ _ _ _ => rfl }
  placed := ⟨orderly.placed.allocated, orderly.placed.level, orderly.placed.running⟩

/-- A PCB whose quantum runs exists already. -/
theorem Orderly.not_running_new (orderly : Orderly k lists) (level : Level) :
    k.quantum ≠ some (level, k.nextPtr) := by
  intro running
  obtain ⟨_, pcb, found, _⟩ := orderly.placed.running level _ running
  rw [orderly.table.next_free] at found
  cases found

theorem spawnShell_orderly (orderly : Orderly k lists)
    (run : spawnShell self k = some ((), k')) : ∃ lists', Orderly k' lists' := by
  obtain ⟨pcb, k1, called, run⟩ := Prog.bind_inv run
  obtain ⟨_, _, _, rfl⟩ := asCaller_inv called
  simp only [Prog.get_bind] at run
  obtain ⟨_, k2, checked, run⟩ := Prog.bind_inv run
  obtain ⟨⟨_, unspawned⟩, rfl⟩ := require_inv checked
  rw [Prog.modify_bind] at run
  have unused : Unused k.setShellSpawned shellPid := by
    intro ptr pcb found same
    rw [orderly.table.shell ptr pcb found same] at unspawned
    cases unspawned
  have orderly1 := setShellSpawned_orderly orderly
  obtain ⟨shell, k3, made, run⟩ := Prog.bind_inv run
  obtain ⟨rfl, born⟩ := pcbInitEmpty_born orderly1.table made
  obtain ⟨_, k4, started, run⟩ := Prog.bind_inv run
  have startedQuiet := quiet_of_update started fun _ => ⟨rfl, rfl, rfl, fun _ => (by rintro ⟨⟩)⟩
  have born4 := born.quiet startedQuiet
  obtain ⟨_, k5, listed, run⟩ := Prog.bind_inv run
  have orderly5 := born4.listed orderly1 unused (fun _ => rfl) listed
  simp only [pcbVecPushBack, Prog.modify_run, Option.some.injEq, Prod.mk.injEq,
    true_and] at listed
  obtain ⟨_, k6, queued, run⟩ := Prog.bind_inv run
  obtain ⟨shellPcb, found, _, priority⟩ := born4.new
  have found5 : k5.pcbs k.setShellSpawned.nextPtr = some shellPcb := listed ▸ found
  have idle : ∀ level, k5.quantum ≠ some (level, k.setShellSpawned.nextPtr) := by
    intro level
    rw [← listed]
    change k4.quantum ≠ _
    rw [born4.quantum]
    exact orderly1.not_running_new level
  have orderly6 := pcbQueuePush_orderly orderly5 found5 idle (priority ▸ queued)
  obtain ⟨_, k7, blocked, run⟩ := Prog.bind_inv run
  have orderly7 := orderly6.of_quiet (quiet_of_update blocked fun _ => ⟨rfl, rfl, rfl, id⟩)
  simp only [Prog.modify_run, Option.some.injEq, Prod.mk.injEq, true_and] at run
  exact ⟨_, run ▸ orderly7.of_quiet (setPending_quiet k7 _)⟩

/-- The PCB has no thread yet, so it is not the one that runs. -/
theorem setRoutineAndRun_orderly {proc : PcbPtr} (orderly : Orderly k lists)
    (run : setRoutineAndRun self proc k = some ((), k')) : ∃ lists', Orderly k' lists' := by
  obtain ⟨pcb, k1, called, run⟩ := Prog.bind_inv run
  obtain ⟨_, _, _, rfl⟩ := asCaller_inv called
  obtain ⟨procPcb, k2, read, run⟩ := Prog.bind_inv run
  obtain ⟨found, rfl⟩ := deref_inv read
  obtain ⟨_, k3, checked, run⟩ := Prog.bind_inv run
  obtain ⟨absent, rfl⟩ := require_inv checked
  obtain ⟨_, k4, started, run⟩ := Prog.bind_inv run
  have quiet := quiet_of_update started fun _ => ⟨rfl, rfl, rfl, fun _ => nofun⟩
  obtain ⟨procPcb', k5, read', run⟩ := Prog.bind_inv run
  obtain ⟨found', rfl⟩ := deref_inv read'
  have idle : ∀ level, k4.quantum ≠ some (level, proc) := by
    intro level
    rw [quiet.quantum]
    intro running
    obtain ⟨_, runningPcb, found'', thread⟩ := orderly.placed.running level proc running
    obtain rfl := Option.some.inj (found.symm.trans found'')
    exact thread absent
  exact ⟨_, pcbQueuePush_orderly (orderly.of_quiet quiet) found' idle run⟩

end Calls

section Scheduler

/-- Waking a PCB and queueing it. -/
theorem wake_orderly {pcb : Pcb} {f : Pcb → Pcb} (orderly : Orderly k lists)
    (found : k.pcbs ptr = some pcb) (idle : k.quantum = none)
    (woken : update ptr f k = some ((), k')) (mild : Mild f)
    (run : pcbQueuePush pcb.priorityLevel ptr k' = some ((), k'')) :
    Orderly k'' (pushed lists pcb.priorityLevel ptr) := by
  have quiet := quiet_of_update woken mild
  obtain ⟨pcb1, found1, rfl⟩ := update_inv woken
  obtain rfl := Option.some.inj (found.symm.trans found1)
  have found' : (k.setPcb ptr (f pcb)).pcbs ptr = some (f pcb) := by simp [setPcb_pcbs]
  have priority : (f pcb).priorityLevel = pcb.priorityLevel := (mild pcb).2.2.1
  have pushing := pcbQueuePush_orderly (orderly.of_quiet quiet) found'
    (fun level => by rw [quiet.quantum, idle]; nofun) (priority.symm ▸ run)
  exact priority ▸ pushing

/-- Where PIDs are distinct, the first PCB with a PID is the only one. -/
theorem eraseP_hasPid {pcb : Pcb} (table : Table k) (found : k.pcbs ptr = some pcb)
    (list : List PcbPtr) : list.eraseP (k.hasPid pcb.pid) = list.erase ptr := by
  have same : ∀ node, k.hasPid pcb.pid node = (node == ptr) := by
    intro node
    simp only [KernelState.hasPid]
    cases nodeFound : k.pcbs node with
    | none =>
        have apart : node ≠ ptr := by
          rintro rfl
          rw [found] at nodeFound
          cases nodeFound
        simp [apart]
    | some nodePcb =>
        by_cases here : node = ptr
        · subst here
          obtain rfl := Option.some.inj (found.symm.trans nodeFound)
          simp
        · have differs : nodePcb.pid ≠ pcb.pid :=
            fun equal => here (table.pids node ptr nodePcb pcb nodeFound found equal)
          simp [here, differs]
  rw [List.erase_eq_eraseP', funext same]

/-- Queues that got shorter while no quantum runs. -/
theorem Placed.shrink (placed : Placed k lists) (lists' : Level → List PcbPtr)
    (idle : k.quantum = none) (shorter : ∀ level ptr, ptr ∈ lists' level → ptr ∈ lists level) :
    Placed k lists' where
  allocated level ptr member := placed.allocated level ptr (shorter level ptr member)
  level level ptr pcb member found := placed.level level ptr pcb (shorter level ptr member) found
  running level ptr running := by
    rw [idle] at running
    cases running

theorem mem_update_of_subset {level other : Level} {list : List PcbPtr} {node : PcbPtr}
    (subset : ∀ node ∈ list, node ∈ lists level)
    (member : node ∈ Function.update lists level list other) : node ∈ lists other := by
  by_cases here : other = level
  · subst here
    rw [Function.update_self] at member
    exact subset node member
  · rwa [Function.update_of_ne here] at member

/-- A PCB in no queue is removed from the vector and freed. -/
theorem destroy_orderly (orderly : Orderly k lists) (idle : k.quantum = none)
    (out : ∀ level, ptr ∉ lists level) (removed : pcbVecRemoveByPcb ptr k = some ((), k'))
    (run : pcbDestroy ptr k' = some ((), k'')) : Orderly k'' lists := by
  simp only [pcbVecRemoveByPcb, Prog.modify_run, Option.some.injEq, Prod.mk.injEq,
    true_and] at removed
  subst removed
  simp only [pcbDestroy, Prog.modify_run, Option.some.injEq, Prod.mk.injEq, true_and] at run
  subst run
  have table := orderly.table
  have keeps : ∀ other pcb, Function.update k.pcbs ptr none other = some pcb →
      other ≠ ptr ∧ k.pcbs other = some pcb := by
    intro other pcb found
    rw [Function.update_apply] at found
    split at found
    · cases found
    · next apart => exact ⟨apart, found⟩
  have stays : ∀ other pcb, other ≠ ptr → k.pcbs other = some pcb →
      Function.update k.pcbs ptr none other = some pcb := by
    intro other pcb apart found
    rwa [Function.update_of_ne apart]
  refine ⟨orderly.intact.of_same ?_ rfl, ?_, ?_⟩
  · funext other
    simp only [KernelState.next]
    by_cases here : other = ptr
    · subst here
      simpa [KernelState.next] using (orderly.intact.loose other out).symm
    · rw [Function.update_of_ne here]
  · constructor
    · intro other pcb found
      exact table.bounded other pcb (keeps other pcb found).2
    · intro other pcb found
      obtain ⟨apart, before⟩ := keeps other pcb found
      exact (List.mem_erase_of_ne apart).mpr (table.listed other pcb before)
    · intro other member
      obtain ⟨apart, before⟩ := (table.distinct.mem_erase_iff).mp member
      obtain ⟨pcb, found⟩ := table.allocated other before
      exact ⟨pcb, stays other pcb apart found⟩
    · exact table.distinct.erase ptr
    · intro first second pcb pcb' found found'
      exact table.pids first second pcb pcb' (keeps first pcb found).2 (keeps second pcb' found').2
    · intro other pcb found
      exact table.shell other pcb (keeps other pcb found).2
  · constructor
    · intro level other member
      obtain ⟨pcb, found⟩ := orderly.placed.allocated level other member
      have apart : other ≠ ptr := by
        rintro rfl
        exact out level member
      exact ⟨pcb, stays other pcb apart found⟩
    · intro level other pcb member found
      exact orderly.placed.level level other pcb member (keeps other pcb found).2
    · intro level other running
      change k.quantum = _ at running
      rw [idle] at running
      cases running

/-- Taking a PCB out of the queue of its priority takes it out of every queue. -/
theorem popOwn_orderly {pcb : Pcb} {result : Option PcbPtr} (orderly : Orderly k lists)
    (idle : k.quantum = none) (found : k.pcbs ptr = some pcb)
    (run : pcbQueuePopByPid pcb.priorityLevel pcb.pid k = some (result, k')) :
    ∃ lists', Orderly k' lists' ∧ ∀ level, ptr ∉ lists' level := by
  have same := SameTable.of_sameButLinks (pcbQueuePopByPid_frame run)
  have intact := pcbQueuePopByPid_intact orderly.intact run
  rw [eraseP_hasPid orderly.table found] at intact
  have shrunk := orderly.placed.shrink (Function.update lists pcb.priorityLevel
    ((lists pcb.priorityLevel).erase ptr)) idle
    fun level node => mem_update_of_subset fun node => List.mem_of_mem_erase
  refine ⟨_, ⟨intact, orderly.table.of_same same.toSamePids, shrunk.of_same same⟩, fun level member => ?_⟩
  by_cases here : level = pcb.priorityLevel
  · subst here
    rw [Function.update_self] at member
    exact ((orderly.intact.forest.links _).nodup.not_mem_erase) member
  · rw [Function.update_of_ne here] at member
    rcases orderly.placed.level level ptr pcb member found with own | running
    · exact here own.symm
    · rw [idle] at running
      cases running

theorem maintain_orderly {gone : Bool} (orderly : Orderly k lists) (idle : k.quantum = none)
    (run : maintain ptr k = some (gone, k')) :
    (∃ lists', Orderly k' lists') ∧ k'.quantum = none := by
  obtain ⟨pcb, k1, read, run⟩ := Prog.bind_inv run
  obtain ⟨found, rfl⟩ := deref_inv read
  simp only [Prog.get_bind] at run
  by_cases running : pcb.status = .running
  · simp only [running, ↓reduceIte] at run
    obtain ⟨queued, k2, searched, run⟩ := Prog.bind_inv run
    obtain rfl := pcbInQueue_state searched
    cases queued with
    | true =>
        simp only [Bool.not_true, Bool.false_eq_true, ↓reduceIte, Prog.pure_run,
          Option.some.injEq, Prod.mk.injEq] at run
        exact run.2 ▸ ⟨⟨lists, orderly⟩, idle⟩
    | false =>
        simp only [Bool.not_false, ↓reduceIte] at run
        obtain ⟨_, k3, queue, run⟩ := Prog.bind_inv run
        simp only [Prog.pure_run, Option.some.injEq, Prod.mk.injEq] at run
        obtain ⟨_, rfl⟩ := run
        refine ⟨⟨_, pcbQueuePush_orderly orderly found (fun level => ?_) queue⟩, ?_⟩
        · rw [idle]
          nofun
        · exact (pcbQueuePush_frame queue).quantum.trans idle
  · simp only [running, ↓reduceIte] at run
    by_cases asleep : pcb.status = .blocked ∧ pcb.sleepStamp ≠ 0
    · simp only [asleep, ne_eq, not_false_eq_true, and_self, ↓reduceIte] at run
      by_cases finished : sleepOver k.globalClock pcb = true
      · simp only [finished, ↓reduceIte] at run
        obtain ⟨_, k2, woken, run⟩ := Prog.bind_inv run
        obtain ⟨_, k3, queue, run⟩ := Prog.bind_inv run
        simp only [Prog.pure_run, Option.some.injEq, Prod.mk.injEq] at run
        obtain ⟨_, rfl⟩ := run
        have mild : Mild fun pcb => { pcb with status := .running } := fun _ => ⟨rfl, rfl, rfl, id⟩
        refine ⟨⟨_, wake_orderly orderly found idle woken mild queue⟩, ?_⟩
        exact (pcbQueuePush_frame queue).quantum.trans
          ((quiet_of_update woken mild).quantum.trans idle)
      · simp only [finished, Bool.false_eq_true, ↓reduceIte, Prog.pure_run, Option.some.injEq,
          Prod.mk.injEq] at run
        exact run.2 ▸ ⟨⟨lists, orderly⟩, idle⟩
    · simp only [asleep, ↓reduceIte] at run
      by_cases reaped : pcb.status = .reaped
      · simp only [reaped, ↓reduceIte] at run
        obtain ⟨_, k2, popped, run⟩ := Prog.bind_inv run
        obtain ⟨_, k3, removed, run⟩ := Prog.bind_inv run
        obtain ⟨_, k4, destroyed, run⟩ := Prog.bind_inv run
        simp only [Prog.pure_run, Option.some.injEq, Prod.mk.injEq] at run
        obtain ⟨_, rfl⟩ := run
        obtain ⟨lists', orderly', out⟩ := popOwn_orderly orderly idle found popped
        have idle' := (pcbQueuePopByPid_frame popped).quantum.trans idle
        refine ⟨⟨_, destroy_orderly orderly' idle' out removed destroyed⟩, ?_⟩
        simp only [pcbVecRemoveByPcb, Prog.modify_run, Option.some.injEq, Prod.mk.injEq,
          true_and] at removed
        simp only [pcbDestroy, Prog.modify_run, Option.some.injEq, Prod.mk.injEq,
          true_and] at destroyed
        rw [← destroyed, ← removed]
        exact idle'
      · simp only [reaped, ↓reduceIte, Prog.pure_run, Option.some.injEq, Prod.mk.injEq] at run
        exact run.2 ▸ ⟨⟨lists, orderly⟩, idle⟩

theorem maintenanceLoop_orderly {count i : Nat} (orderly : Orderly k lists)
    (idle : k.quantum = none) (run : maintenanceLoop count i k = some ((), k')) :
    ∃ lists', Orderly k' lists' := by
  induction count generalizing i k lists with
  | zero =>
      simp only [maintenanceLoop, Prog.pure_run, Option.some.injEq, Prod.mk.injEq,
        true_and] at run
      exact run ▸ ⟨lists, orderly⟩
  | succ count ih =>
      simp only [maintenanceLoop, Prog.get_bind] at run
      cases entry : k.allUnreapedPcbVector[i]? with
      | none => simp [entry] at run
      | some curr =>
          simp only [entry] at run
          obtain ⟨gone, k1, kept, run⟩ := Prog.bind_inv run
          obtain ⟨⟨lists', orderly'⟩, idle'⟩ := maintain_orderly orderly idle kept
          cases gone with
          | true => exact ih orderly' idle' run
          | false => exact ih orderly' idle' run

theorem maintenancePass_orderly (orderly : Orderly k lists)
    (run : maintenancePass k = some ((), k')) : ∃ lists', Orderly k' lists' := by
  simp only [maintenancePass, Prog.get_bind] at run
  obtain ⟨_, k1, checked, run⟩ := Prog.bind_inv run
  obtain ⟨idle, rfl⟩ := require_inv checked
  exact maintenanceLoop_orderly orderly idle run

/-- The scheduler pops what it passes over, so its choice is the first of the queue. -/
theorem pickLoop_orderly {fuel : Nat} {curr result : Option PcbPtr} (orderly : Orderly k lists)
    (idle : k.quantum = none) (here : curr = (lists level).head?)
    (run : pickLoop level fuel curr k = some (result, k')) :
    ∃ lists', Orderly k' lists' ∧
      ∀ chosen, result = some chosen → (lists' level).head? = some chosen := by
  induction fuel generalizing curr k lists with
  | zero =>
      cases curr with
      | none =>
          simp only [pickLoop, Prog.pure_run, Option.some.injEq, Prod.mk.injEq] at run
          obtain ⟨rfl, rfl⟩ := run
          exact ⟨lists, orderly, (by rintro _ ⟨⟩)⟩
      | some _ => simp [pickLoop] at run
  | succ fuel ih =>
      cases curr with
      | none =>
          simp only [pickLoop, Prog.pure_run, Option.some.injEq, Prod.mk.injEq] at run
          obtain ⟨rfl, rfl⟩ := run
          exact ⟨lists, orderly, (by rintro _ ⟨⟩)⟩
      | some curr =>
          obtain ⟨pcb, k1, read, run⟩ := Prog.bind_inv run
          obtain ⟨found, rfl⟩ := deref_inv read
          by_cases runs : pcb.status = .running
          · simp only [runs, ↓reduceIte, Prog.pure_run, Option.some.injEq, Prod.mk.injEq] at run
            obtain ⟨rfl, rfl⟩ := run
            exact ⟨lists, orderly, fun chosen same => same ▸ here.symm⟩
          · simp only [runs, ↓reduceIte] at run
            obtain ⟨_, k2, popped, run⟩ := Prog.bind_inv run
            obtain ⟨rest, list⟩ : ∃ rest, lists level = curr :: rest :=
              List.head?_eq_some_iff.mp here.symm
            have same := SameTable.of_sameButLinks (pcbQueuePopByPid_frame popped)
            have intact := pcbQueuePopByPid_intact orderly.intact popped
            rw [list, List.eraseP_cons_of_pos (by simp [hasPid_of_found found])] at intact
            have shrunk := orderly.placed.shrink (Function.update lists level rest) idle
              fun other node => mem_update_of_subset fun node member => by simp [list, member]
            have orderly' : Orderly k2 (Function.update lists level rest) :=
              ⟨intact, orderly.table.of_same same.toSamePids, shrunk.of_same same⟩
            refine ih orderly' (same.quantum.trans idle) ?_ run
            have links := orderly.intact.forest.links level
            rw [list] at links
            have link := links.2
            rw [next_of_found found] at link
            rw [Function.update_self]
            cases rest with
            | nil => exact link
            | cons second rest => exact link.1

theorem pick_orderly (orderly : Orderly k lists) (run : pick level k = some ((), k')) :
    ∃ lists', Orderly k' lists' := by
  simp only [pick, Prog.get_bind] at run
  obtain ⟨_, k1, checked, run⟩ := Prog.bind_inv run
  obtain ⟨idle, rfl⟩ := require_inv checked
  obtain ⟨found, k2, picked, run⟩ := Prog.bind_inv run
  have first : (k.priorityQueueArray level).qHeadPtr = (lists level).head? := by
    have links := orderly.intact.forest.links level
    cases list : lists level with
    | nil =>
        rw [list] at links
        exact links
    | cons node rest =>
        rw [list] at links
        exact links.1
  obtain ⟨lists', orderly', chosen⟩ := pickLoop_orderly orderly idle first picked
  cases found with
  | none =>
      simp only [Prog.pure_run, Option.some.injEq, Prod.mk.injEq, true_and] at run
      exact run ▸ ⟨lists', orderly'⟩
  | some curr =>
      obtain ⟨pcb, k3, read, run⟩ := Prog.bind_inv run
      obtain ⟨present, rfl⟩ := deref_inv read
      obtain ⟨_, k4, started, run⟩ := Prog.bind_inv run
      obtain ⟨thread, rfl⟩ := require_inv started
      simp only [Prog.modify_run, Option.some.injEq, Prod.mk.injEq, true_and] at run
      have idle' := (pickLoop_frame picked).quantum.trans idle
      subst run
      refine ⟨lists', orderly'.intact.of_same rfl rfl,
        { orderly'.table with }, orderly'.placed.allocated, ?_, ?_⟩
      · intro other node nodePcb member nodeFound
        rcases orderly'.placed.level other node nodePcb member nodeFound with own | running
        · exact .inl own
        · rw [idle'] at running
          cases running
      · intro other node running
        simp only [Option.some.injEq, Prod.mk.injEq] at running
        obtain ⟨rfl, rfl⟩ := running
        exact ⟨chosen _ rfl, pcb, present, thread⟩

theorem idleTick_orderly (orderly : Orderly k lists) (run : idleTick k = some ((), k')) :
    Orderly k' lists := by
  simp only [idleTick, Prog.get_bind] at run
  obtain ⟨_, k1, checked, run⟩ := Prog.bind_inv run
  obtain ⟨_, rfl⟩ := require_inv checked
  simp only [Prog.modify_run, Option.some.injEq, Prod.mk.injEq, true_and] at run
  exact run ▸ ⟨orderly.intact.of_same rfl rfl, { orderly.table with },
    orderly.placed.allocated, orderly.placed.level, orderly.placed.running⟩

/-- The PCB whose quantum ends is the one that is popped, and is then in no queue. -/
theorem quantumPop_orderly {curr : PcbPtr} {result : Option PcbPtr} (orderly : Orderly k lists)
    (running : k.quantum = some (level, curr))
    (run : pcbQueuePop level (k.setQuantum none) = some (result, k')) :
    result = some curr ∧ k'.quantum = none ∧ ∃ rest, lists level = curr :: rest ∧
      Orderly k' (Function.update lists level rest) ∧
      ∀ other, curr ∉ Function.update lists level rest other := by
  obtain ⟨head, _⟩ := orderly.placed.running level curr running
  obtain ⟨rest, list⟩ : ∃ rest, lists level = curr :: rest := List.head?_eq_some_iff.mp head
  have intact : Intact (k.setQuantum none) lists := orderly.intact.of_same rfl rfl
  obtain ⟨popped, intact'⟩ := pcbQueuePop_intact intact run
  have same := SameTable.of_sameButLinks (pcbQueuePop_frame run)
  have table : Table (k.setQuantum none) := { orderly.table with }
  have distinct := (orderly.intact.forest.links level).nodup
  rw [list] at distinct intact'
  have out : ∀ other, curr ∉ Function.update lists level rest other := by
    intro other member
    by_cases here : other = level
    · subst here
      rw [Function.update_self] at member
      exact (List.nodup_cons.mp distinct).1 member
    · rw [Function.update_of_ne here] at member
      exact orderly.intact.forest.off_others (i := level) (by simp [list]) here member
  have subset : ∀ other node, node ∈ Function.update lists level rest other →
      node ∈ lists other :=
    fun other node => mem_update_of_subset fun node member => by simp [list, member]
  have placed : Placed (k.setQuantum none) (Function.update lists level rest) := by
    refine ⟨fun other node member => orderly.placed.allocated other node (subset other node member),
      fun other node pcb member found => ?_, nofun⟩
    rcases orderly.placed.level other node pcb (subset other node member) found with own | runs
    · exact .inl own
    · rw [running] at runs
      simp only [Option.some.injEq, Prod.mk.injEq] at runs
      exact absurd member (runs.2 ▸ out other)
  exact ⟨popped.trans head, same.quantum, rest, list, ⟨intact', table.of_same same.toSamePids,
    placed.of_same same⟩, out⟩

theorem quantumEnd_orderly (orderly : Orderly k lists) (run : quantumEnd k = some ((), k')) :
    ∃ lists', Orderly k' lists' := by
  simp only [quantumEnd, Prog.get_bind] at run
  cases quantum : k.quantum with
  | none => simp [quantum] at run
  | some slot =>
      obtain ⟨level, curr⟩ := slot
      simp only [quantum, Prog.modify_bind] at run
      obtain ⟨popped, k1, pop, run⟩ := Prog.bind_inv run
      obtain ⟨rfl, idle, rest, _, orderly', out⟩ := quantumPop_orderly orderly quantum pop
      obtain ⟨pcb, k2, read, run⟩ := Prog.bind_inv run
      obtain ⟨found, rfl⟩ := deref_inv read
      by_cases running : pcb.status = .running
      · simp only [running, ↓reduceIte] at run
        exact ⟨_, pcbQueuePush_orderly orderly' found (fun level => by rw [idle]; nofun) run⟩
      · simp only [running, ↓reduceIte] at run
        by_cases asleep : pcb.status = .blocked ∧ pcb.sleepStamp ≠ 0
        · simp only [asleep, ne_eq, not_false_eq_true, and_self, ↓reduceIte] at run
          by_cases finished : sleepOver k.globalClock pcb = true
          · simp only [finished, ↓reduceIte] at run
            obtain ⟨_, k3, woken, run⟩ := Prog.bind_inv run
            exact ⟨_, wake_orderly orderly' found idle woken (fun _ => ⟨rfl, rfl, rfl, id⟩) run⟩
          · simp only [finished, Bool.false_eq_true, ↓reduceIte, Prog.pure_run, Option.some.injEq,
              Prod.mk.injEq, true_and] at run
            exact run ▸ ⟨_, orderly'⟩
        · simp only [asleep, ↓reduceIte] at run
          by_cases reaped : pcb.status = .reaped
          · simp only [reaped, ↓reduceIte] at run
            obtain ⟨_, k3, removed, run⟩ := Prog.bind_inv run
            exact ⟨_, destroy_orderly orderly' idle out removed run⟩
          · simp only [reaped, ↓reduceIte, Prog.pure_run, Option.some.injEq, Prod.mk.injEq,
              true_and] at run
            exact run ▸ ⟨_, orderly'⟩

end Scheduler

/-- The target of a `k_nice` with a valid priority keeps its priority, or is the PCB whose
quantum runs, or is in no queue. -/
def NiceInPlace (k : KernelState) : Event → Prop
  | .nice _ pid newPriority => 0 ≤ newPriority ∧ newPriority < 3 → ∀ target k' pcb,
      pcbVecSeekPcbByPid pid k = some (some target, k') → k.pcbs target = some pcb →
      (pcb.priorityLevel : Int) = newPriority ∨ (∃ level, k.quantum = some (level, target)) ∨
        ∀ level k', pcbInQueue target level k ≠ some (true, k')
  | _ => True

/-- In a queue of the invariant, `pcb_in_queue` finds exactly its members. -/
theorem inQueueLoop_total {fuel : Nat} {curr : Option PcbPtr} {list : List PcbPtr}
    (links : Links k.next curr list) (allocated : ∀ node ∈ list, ∃ pcb, k.pcbs node = some pcb)
    (enough : list.length ≤ fuel) :
    inQueueLoop ptr fuel curr k = some (decide (ptr ∈ list), k) := by
  induction list generalizing fuel curr with
  | nil =>
      obtain rfl : curr = none := links
      cases fuel <;> simp [inQueueLoop]
  | cons node rest ih =>
      obtain ⟨rfl, tail⟩ := links
      cases fuel with
      | zero => simp at enough
      | succ fuel =>
          by_cases here : node = ptr
          · simp [inQueueLoop, here]
          · obtain ⟨pcb, found⟩ := allocated node List.mem_cons_self
            rw [next_of_found found] at tail
            simp only [inQueueLoop, here, ↓reduceIte]
            rw [Prog.bind_of_run (deref_run found),
              ih tail (fun other later => allocated other (List.mem_cons_of_mem _ later))
                (by simpa using enough)]
            simp [Ne.symm here]

/-- A queue holds distinct addresses below `nextPtr`. -/
theorem Orderly.length_le (orderly : Orderly k lists) (level : Level) :
    (lists level).length ≤ k.nextPtr := by
  have links := orderly.intact.forest.links level
  have bounded : lists level ⊆ List.range k.nextPtr := by
    intro node inside
    obtain ⟨pcb, found⟩ := orderly.placed.allocated level node inside
    exact List.mem_range.mpr (orderly.table.bounded node pcb found)
  have count := (List.subperm_of_subset links.nodup bounded).length_le
  rwa [List.length_range] at count

theorem pcbInQueue_total (orderly : Orderly k lists) (ptr : PcbPtr) (level : Level) :
    pcbInQueue ptr level k = some (decide (ptr ∈ lists level), k) :=
  inQueueLoop_total (orderly.intact.forest.links level) (orderly.placed.allocated level)
    (Nat.le_succ_of_le (orderly.length_le level))

theorem kNice_orderly {pid newPriority result : Int} (orderly : Orderly k lists)
    (sound : NiceInPlace k (.nice self pid newPriority))
    (run : kNice self pid newPriority k = some (result, k')) : Orderly k' lists := by
  obtain ⟨pcb, k1, called, run⟩ := Prog.bind_inv run
  obtain ⟨_, _, _, rfl⟩ := asCaller_inv called
  by_cases valid : 0 ≤ newPriority ∧ newPriority < 3
  swap
  · simp only [valid, ↓reduceDIte, Prog.pure_run, Option.some.injEq, Prod.mk.injEq] at run
    exact run.2 ▸ orderly
  rw [dif_pos valid] at run
  obtain ⟨found, k2, searched, run⟩ := Prog.bind_inv run
  have search := searched
  obtain ⟨rfl, _⟩ := pcbVecSeekPcbByPid_inv searched
  cases found with
  | none =>
      simp only [Prog.pure_run, Option.some.injEq, Prod.mk.injEq] at run
      exact run.2 ▸ orderly
  | some target =>
      obtain ⟨_, k3, changed, run⟩ := Prog.bind_inv run
      simp only [Prog.pure_run, Option.some.injEq, Prod.mk.injEq] at run
      obtain ⟨_, rfl⟩ := run
      obtain ⟨targetPcb, found, rfl⟩ := update_inv changed
      have placed := orderly.placed
      refine ⟨orderly.intact.of_same ?_ rfl, orderly.table.of_same (setPcb_samePids found rfl id),
        fun level node member => ?_, fun level node nodePcb member nodeFound => ?_,
        fun level node running => ?_⟩
      · rw [next_setPcb]
        exact (congrArg _ (next_of_found found).symm).trans (Function.update_eq_self _ _)
      · rw [setPcb_pcbs]
        split
        · exact ⟨_, rfl⟩
        · exact placed.allocated level node member
      · rw [setPcb_pcbs] at nodeFound
        split at nodeFound
        swap
        · exact placed.level level node nodePcb member nodeFound
        next here =>
          subst here
          cases nodeFound
          have queued := pcbInQueue_total orderly node level
          rw [decide_eq_true member] at queued
          rcases sound valid node k targetPcb search found with same | ⟨other, running⟩ | out
          · rcases placed.level level node targetPcb member found with own | running
            · refine .inl (Fin.ext ?_)
              simp only
              rw [← own]
              omega
            · exact .inr running
          · obtain ⟨head, _⟩ := placed.running other node running
            obtain rfl := orderly.intact.forest.apart other level node
              (List.mem_of_mem_head? head) member
            exact .inr running
          · exact absurd queued (out level k)
      · obtain ⟨head, nodePcb, nodeFound, thread⟩ := placed.running level node running
        refine ⟨head, ?_⟩
        rw [setPcb_pcbs]
        split
        · next here =>
            subst here
            obtain rfl := Option.some.inj (found.symm.trans nodeFound)
            exact ⟨_, rfl, thread⟩
        · exact ⟨nodePcb, nodeFound, thread⟩

theorem event_orderly {event : Event} (orderly : Orderly k lists) (meets : NiceInPlace k event)
    (step : Step k event k') : ∃ lists', Orderly k' lists' := by
  cases event with
  | spawnShell self => exact spawnShell_orderly orderly step
  | shellReturned self => exact ⟨lists, orderly.of_quiet (shellReturned_quiet _ _ _ step)⟩
  | initResumed self shell => exact ⟨lists, orderly.of_quiet (initResumed_quiet _ _ _ step)⟩
  | procCreate self priority =>
      obtain ⟨_, k1, created, rest⟩ := Prog.bind_inv step
      simp only [Prog.pure_run, Option.some.injEq, Prod.mk.injEq, true_and] at rest
      exact ⟨lists, rest ▸ kProcCreate_orderly orderly created⟩
  | setRoutineAndRun self proc => exact setRoutineAndRun_orderly orderly step
  | kill self pid sig => exact ⟨lists, orderly.of_quiet (kKill_quiet _ _ _ step)⟩
  | selfStopResumed self => exact ⟨lists, orderly.of_quiet (selfStopResumed_quiet _ _ _ step)⟩
  | exit self => exact ⟨lists, orderly.of_quiet (kExit_quiet _ _ _ step)⟩
  | sleep self length => exact ⟨lists, orderly.of_quiet (kSleep_quiet _ _ _ step)⟩
  | sleepResumed self => exact ⟨lists, orderly.of_quiet (kSleepResumed_quiet _ _ _ step)⟩
  | waitpid self pid nohang =>
      obtain ⟨_, k1, waited, rest⟩ := Prog.bind_inv step
      simp only [Prog.pure_run, Option.some.injEq, Prod.mk.injEq, true_and] at rest
      exact ⟨lists, rest ▸ orderly.of_quiet (kWaitpid_quiet _ _ _ waited)⟩
  | waitpidJoined self child => exact ⟨lists, orderly.of_quiet (kWaitpidJoined_quiet _ _ _ step)⟩
  | waitpidReap self child =>
      obtain ⟨_, k1, reaped, rest⟩ := Prog.bind_inv step
      simp only [Prog.pure_run, Option.some.injEq, Prod.mk.injEq, true_and] at rest
      exact ⟨lists, rest ▸ orderly.of_quiet (kWaitpidReap_quiet _ _ _ reaped)⟩
  | nice self pid newPriority =>
      obtain ⟨_, k1, changed, rest⟩ := Prog.bind_inv step
      simp only [Prog.pure_run, Option.some.injEq, Prod.mk.injEq, true_and] at rest
      exact ⟨lists, rest ▸ kNice_orderly orderly meets changed⟩
  | maintenancePass => exact maintenancePass_orderly orderly step
  | pick level => exact pick_orderly orderly step
  | idleTick => exact ⟨lists, idleTick_orderly orderly step⟩
  | quantumEnd => exact quantumEnd_orderly orderly step

/-- At boot the init PCB is alone, in queue 0. -/
theorem boot_orderly : Orderly .boot fun level => if level = 0 then [0] else [] := by
  have unlinked : ∀ ptr, KernelState.boot.next ptr = none := by
    intro ptr
    rw [KernelState.next, boot_pcbs]
    split <;> rfl
  have only : ∀ ptr pcb, KernelState.boot.pcbs ptr = some pcb → ptr = 0 ∧ pcb = initPcb := by
    intro ptr pcb found
    rw [boot_pcbs] at found
    split at found
    · next here =>
        cases found
        exact ⟨here, rfl⟩
    · cases found
  refine ⟨⟨⟨fun level => ?_, fun level other node first second => ?_⟩, fun level => ?_,
    fun level => ?_, fun ptr _ => unlinked ptr⟩, ⟨fun ptr pcb found => ?_, fun ptr pcb found => ?_,
    fun ptr member => ?_, List.nodup_singleton 0, fun ptr other pcb pcb' found found' _ => ?_,
    fun ptr pcb found isShell => ?_⟩, ⟨fun level ptr member => ?_,
    fun level ptr pcb member found => ?_, (by rintro _ _ ⟨⟩)⟩⟩
  · simp only [KernelState.head, KernelState.boot]
    split
    · exact ⟨rfl, unlinked 0⟩
    · rfl
  · split at first <;> split at second <;> simp_all
  · simp only [KernelState.boot]
    split <;> rfl
  · simp only [KernelState.boot]
    split <;> rfl
  · obtain ⟨rfl, _⟩ := only ptr pcb found
    exact Nat.zero_lt_one
  · obtain ⟨rfl, _⟩ := only ptr pcb found
    exact List.mem_singleton_self 0
  · obtain rfl := List.mem_singleton.mp member
    exact ⟨initPcb, boot_pcbs 0⟩
  · exact (only ptr pcb found).1.trans (only other pcb' found').1.symm
  · obtain ⟨_, rfl⟩ := only ptr pcb found
    simp [initPcb, initPid, shellPid] at isShell
  · split at member
    · obtain rfl := List.mem_singleton.mp member
      exact ⟨initPcb, boot_pcbs 0⟩
    · cases member
  · obtain ⟨_, rfl⟩ := only ptr pcb found
    split at member
    · next here => exact .inl here.symm
    · cases member

theorem run_orderly (run : Run NiceInPlace k k') (orderly : Orderly k lists) :
    ∃ lists', Orderly k' lists' := by
  induction run with
  | refl => exact ⟨lists, orderly⟩
  | step _ meets step ih =>
      obtain ⟨lists', orderly'⟩ := ih
      exact event_orderly orderly' meets step

/-- Where no `k_nice` moves a queued PCB to another priority, the queues stay intact. -/
theorem queue_integrity (reached : Run NiceInPlace .boot k) : ∃ lists, QueueIntegrity k lists := by
  obtain ⟨lists, orderly⟩ := run_orderly reached boot_orderly
  exact ⟨lists, orderly.integrity⟩

/-- The shell has its quantum, with a process in queue 1. -/
def shellPicked : KernelState := processStarted.after [.pick 0]

/-- The shell lowers its own priority, which moves it to queue 2 when its quantum ends. -/
theorem queue_integrity_shellNiced :
    ∃ lists, QueueIntegrity
      ((shellPicked.after [.nice 1 2 2]).after [.quantumEnd, .maintenancePass]) lists := by
  have picked : Run NiceInPlace .boot shellPicked :=
    Run.of_runEvents (processStarted_run (by simp [startProcess, NiceInPlace]))
      (by simp [NiceInPlace]) (runEvents_after (by decide +kernel))
  have inPlace : NiceInPlace shellPicked (.nice 1 2 2) := by
    intro _ target k' pcb sought _
    have shell : (pcbVecSeekPcbByPid 2 shellPicked).map Prod.fst = some (some 1) := by
      decide +kernel
    rw [sought] at shell
    obtain rfl := Option.some.inj (Option.some.inj shell)
    exact .inr (.inl ⟨0, by decide +kernel⟩)
  have niced : Run NiceInPlace .boot (shellPicked.after [.nice 1 2 2]) := by
    refine picked.step inPlace ?_
    have run := runEvents_after (show (runEvents [.nice 1 2 2] shellPicked).isSome by decide +kernel)
    obtain ⟨_, k', step, rest⟩ := Prog.bind_inv run
    cases rest
    exact step
  exact queue_integrity (Run.of_runEvents niced (by simp [NiceInPlace])
    (runEvents_after (by decide +kernel)))

/-- The shell moves the queued process to priority 2. -/
def niceProcess : List Event := [.pick 0, .nice 1 3 2, .quantumEnd, .maintenancePass]

/-- After the pass the process is in queue 1 and in queue 2. -/
theorem nice_crosses_queues :
    ¬ ∀ k, Run (fun _ _ => True) .boot k → ∃ lists, QueueIntegrity k lists := by
  intro always
  have reached : Run (fun _ _ => True) .boot (processStarted.after niceProcess) :=
    Run.of_runEvents (processStarted_run fun _ _ _ => trivial) (fun _ _ _ => trivial)
      (runEvents_after (by decide +kernel))
  obtain ⟨lists, integrity⟩ := always _ reached
  have heads : ((processStarted.after niceProcess).priorityQueueArray 1).qHeadPtr = some 2 ∧
      ((processStarted.after niceProcess).priorityQueueArray 2).qHeadPtr = some 2 := by
    decide +kernel
  have member : ∀ level, ((processStarted.after niceProcess).priorityQueueArray level).qHeadPtr
      = some 2 → 2 ∈ lists level := by
    intro level head
    have visits := integrity.visits level
    cases list : lists level with
    | nil =>
        rw [list, head] at visits
        cases visits
    | cons first rest =>
        rw [list, head] at visits
        rw [← Option.some.inj visits.1]
        exact List.mem_cons_self
  have same := integrity.apart 1 2 2 (member 1 heads.1) (member 2 heads.2)
  exact absurd same (by decide)

end PennOs.Kernel
