import PennOs.Kernel.QueueIntegrity
import PennOs.Lib.Fifo

set_option autoImplicit false

/- One ready queue as a first-in first-out queue with removal by PID. -/
namespace PennOs.Kernel

open LinkedChain (Links)

variable {k k' : KernelState} {ptr : PcbPtr} {level : Level} {list list' : List PcbPtr}

/-- `calloc` gave out the address, and its PCB was not freed. -/
def KernelState.Allocated (k : KernelState) (ptr : PcbPtr) : Prop :=
  ptr < k.nextPtr ∧ ∃ pcb, k.pcbs ptr = some pcb

/-- The queue leads from its head through the PCBs of `list` to its end. -/
structure Represents (k : KernelState) (level : Level) (list : List PcbPtr) : Prop where
  links : Links k.next (k.head level) list
  allocated : ∀ ptr ∈ list, k.Allocated ptr
  length : (k.priorityQueueArray level).length = list.length
  last : (k.priorityQueueArray level).qEndPtr = list.getLast?

/-- What an operation on the queue does to the state: PCBs that left it have no link, and the links
of those outside are as before. -/
structure Moves (k : KernelState) (level : Level) (list : List PcbPtr) (k' : KernelState)
    (list' : List PcbPtr) : Prop where
  represents : Represents k' level list'
  still : list' = list → k' = k
  same : SameButLinks k k'
  queues : ∀ other, other ≠ level → k'.priorityQueueArray other = k.priorityQueueArray other
  loose : ∀ ptr, ptr ∉ list' → k'.next ptr = if ptr ∈ list then none else k.next ptr

section Representation

theorem SameButLinks.allocated (same : SameButLinks k k') : k'.Allocated ptr ↔ k.Allocated ptr := by
  have cores := same.cores ptr
  rw [KernelState.Allocated, KernelState.Allocated, same.nextPtr]
  apply and_congr_right
  intro _
  cases here : k'.pcbs ptr with
  | none => cases before : k.pcbs ptr <;> simp_all
  | some pcb => cases before : k.pcbs ptr <;> simp_all

theorem SameButLinks.hasPid (same : SameButLinks k k') (pid : Int) : k'.hasPid pid = k.hasPid pid := by
  funext ptr
  have cores := same.cores ptr
  cases here : k'.pcbs ptr with
  | none => cases before : k.pcbs ptr <;> simp_all [KernelState.hasPid]
  | some pcb =>
      obtain ⟨pcb', before, core⟩ := same.pcb here
      rw [hasPid_of_found here, hasPid_of_found before, Pcb.core_pid core]

variable (rep : Represents k level list)
include rep

theorem Represents.nodup : list.Nodup := rep.links.nodup

/-- Distinct addresses below `nextPtr`. -/
theorem Represents.length_le : list.length ≤ k.nextPtr := by
  have bounded : list ⊆ List.range k.nextPtr := by
    intro node inside
    exact List.mem_range.mpr (rep.allocated node inside).1
  have count := (List.subperm_of_subset rep.nodup bounded).length_le
  rwa [List.length_range] at count

theorem Represents.found (member : ptr ∈ list) : ∃ pcb, k.pcbs ptr = some pcb :=
  (rep.allocated ptr member).2

/-- `pcb_in_queue` -/
theorem Represents.contains (ptr : PcbPtr) :
    pcbInQueue ptr level k = some (decide (ptr ∈ list), k) := by
  apply inQueueLoop_total rep.links
  · intro node member
    exact rep.found member
  · have short := rep.length_le
    rw [KernelState.linkFuel]
    omega

theorem Represents.moves_refl : Moves k level list k list := by
  refine ⟨rep, fun _ => rfl, .refl k, fun _ _ => rfl, ?_⟩
  intro ptr outside
  rw [if_neg outside]

end Representation

section Operations

/-- Only links and the record of the queue were written. -/
theorem moves_of_record {queue : PcbQueue} (same : SameButLinks k k')
    (queues : k'.priorityQueueArray = Function.update k.priorityQueueArray level queue)
    (changed : list' ≠ list) (links : Links k'.next queue.qHeadPtr list')
    (length : queue.length = list'.length)
    (last : queue.qEndPtr = list'.getLast?) (allocated : ∀ node ∈ list', k.Allocated node)
    (loose : ∀ node, node ∉ list' → k'.next node = if node ∈ list then none else k.next node) :
    Moves k level list k' list' := by
  have record : k'.priorityQueueArray level = queue := by rw [queues, Function.update_self]
  refine ⟨⟨?_, ?_, ?_, ?_⟩, fun stays => absurd stays changed, same, ?_, loose⟩
  · rw [KernelState.head, record]
    exact links
  · intro node member
    exact same.allocated.mpr (allocated node member)
  · rw [record, length]
  · rw [record, last]
  · intro other apart
    rw [queues, Function.update_of_ne apart]

theorem setLink_sameButLinks {pcb : Pcb} (found : k.pcbs ptr = some pcb) (target : Option PcbPtr) :
    SameButLinks k (k.setPcb ptr { pcb with nextPcbPtr := target }) := setPcb_sameButLinks found rfl

/-- `pcb_queue_push` of a PCB that is in the queue or has no link. -/
theorem Represents.push (rep : Represents k level list)
    (free : ptr ∉ list → k.Allocated ptr ∧ k.next ptr = none) :
    ∃ k', pcbQueuePush level ptr k = some ((), k') ∧
      Moves k level list k' (if ptr ∈ list then list else list ++ [ptr]) := by
  rw [pcbQueuePush, Prog.bind_of_run (rep.contains ptr)]
  by_cases member : ptr ∈ list
  · refine ⟨k, by simp [member], ?_⟩
    rw [if_pos member]
    exact rep.moves_refl
  obtain ⟨allocated, ends⟩ := free member
  simp only [member, decide_false, Bool.false_eq_true, ↓reduceIte, Prog.get_bind, rep.length]
  rcases List.eq_nil_or_concat' list with rfl | ⟨front, last, rfl⟩
  · refine ⟨k.setQueue level ⟨some ptr, some ptr, 1⟩, rfl, ?_⟩
    apply moves_of_record (setQueue_sameButLinks _ _ _) rfl
    · simp
    · exact ⟨rfl, ends⟩
    · rfl
    · rfl
    · intro node here
      exact List.mem_singleton.mp here ▸ allocated
    · intro node _
      rw [if_neg List.not_mem_nil]
      rfl
  · have isEnd : (k.priorityQueueArray level).qEndPtr = some last := by
      rw [rep.last, List.getLast?_concat]
    obtain ⟨pcb, found⟩ := rep.found (List.mem_append_right front (List.mem_singleton_self last))
    have filled : ¬ (front ++ [last]).length = 0 := by simp
    simp only [filled, ↓reduceIte, isEnd]
    rw [Prog.bind_of_run (update_run found)]
    refine ⟨_, rfl, ?_⟩
    have next := next_setPcb k last { pcb with nextPcbPtr := some ptr }
    apply moves_of_record ((setLink_sameButLinks found (some ptr)).trans (setQueue_sameButLinks _ _ _)) rfl
    · simp
    · rw [List.append_assoc]
      exact next ▸ rep.links.push member ends
    · simp
    · simp
    · intro node here
      rcases List.mem_append.mp here with old | new
      · exact rep.allocated node old
      · exact List.mem_singleton.mp new ▸ allocated
    · intro node outside
      have apart : node ≠ last := by
        rintro rfl
        exact outside (by simp)
      have gone : node ∉ front ++ [last] := fun here => outside (List.mem_append_left _ here)
      rw [if_neg gone]
      exact (congrFun next node).trans (Function.update_of_ne apart _ _)

/-- `pcb_queue_pop` -/
theorem Represents.pop (rep : Represents k level list) :
    ∃ k', pcbQueuePop level k = some (list.head?, k') ∧ Moves k level list k' list.tail := by
  rw [pcbQueuePop, Prog.get_bind]
  simp only [rep.length]
  cases list with
  | nil => exact ⟨k, rfl, rep.moves_refl⟩
  | cons first rest =>
      obtain ⟨isHead, links⟩ := rep.links
      obtain ⟨pcb, found⟩ := rep.found List.mem_cons_self
      have next := next_setPcb k first { pcb with nextPcbPtr := none }
      have fresh := (List.nodup_cons.mp rep.nodup).1
      rw [next_of_found found] at links
      rw [KernelState.head] at isHead
      simp only [List.length_cons, Nat.add_one_ne_zero, ↓reduceIte, isHead]
      rw [Prog.bind_of_run (deref_run found), Prog.modify_bind]
      rw [Prog.bind_of_run (update_run (show (k.setQueue level _).pcbs first = some pcb from found))]
      refine ⟨_, rfl, ?_⟩
      apply moves_of_record ((setLink_sameButLinks found none).trans (setQueue_sameButLinks _ level _)) rfl
      · simp
      · exact next ▸ links.frame fresh
      · rfl
      · cases rest with
        | nil => rfl
        | cons second rest =>
            rw [if_neg (by simp), rep.last, List.getLast?_cons_cons]
            rfl
      · intro node here
        exact rep.allocated node (List.mem_cons_of_mem _ here)
      · intro node outside
        refine (congrFun next node).trans ?_
        by_cases here : node = first
        · subst here
          rw [Function.update_self, if_pos List.mem_cons_self]
        · rw [Function.update_of_ne here, if_neg (by simpa [here] using outside)]

/-- The search behind the head ends. -/
theorem beforePidLoop_total {pid : Int} {fuel : Nat} {curr : PcbPtr} {rest : List PcbPtr}
    (links : Links k.next (some curr) (curr :: rest))
    (allocated : ∀ node ∈ curr :: rest, ∃ pcb, k.pcbs node = some pcb) (enough : rest.length < fuel) :
    ∃ result, beforePidLoop pid fuel curr k = some (result, k) := by
  induction rest generalizing fuel curr with
  | nil =>
      obtain ⟨fuel, rfl⟩ := Nat.exists_eq_succ_of_ne_zero (Nat.ne_zero_of_lt enough)
      obtain ⟨pcb, found⟩ := allocated curr List.mem_cons_self
      have ends : pcb.nextPcbPtr = none := next_of_found found ▸ links.2
      refine ⟨none, ?_⟩
      rw [beforePidLoop, Prog.bind_of_run (deref_run found), ends]
      rfl
  | cons after rest ih =>
      obtain ⟨fuel, rfl⟩ := Nat.exists_eq_succ_of_ne_zero (Nat.ne_zero_of_lt enough)
      obtain ⟨pcb, found⟩ := allocated curr List.mem_cons_self
      obtain ⟨afterPcb, found'⟩ := allocated after (by simp)
      have tail := links.2
      rw [next_of_found found] at tail
      rw [beforePidLoop, Prog.bind_of_run (deref_run found), tail.1]
      dsimp only
      rw [Prog.bind_of_run (deref_run found')]
      by_cases here : afterPcb.pid = pid
      · rw [if_pos here]
        exact ⟨_, rfl⟩
      · rw [if_neg here]
        apply ih (tail.1 ▸ tail)
        · intro node member
          exact allocated node (List.mem_cons_of_mem _ member)
        · rw [List.length_cons] at enough
          omega

/-- The end of `pcb_queue_pop_by_pid`, for a PCB behind the head. -/
theorem Represents.cut (rep : Represents k level list) {first before removed : PcbPtr}
    {front back : List PcbPtr} (split : list = front ++ before :: removed :: back)
    (isHead : k.head level = some first) :
    ∃ k', (do
        let resultPcb ← deref removed
        update before fun pcb => { pcb with nextPcbPtr := resultPcb.nextPcbPtr }
        Prog.modify fun k' => k'.setQueue level
          ⟨some first, if (k.priorityQueueArray level).qEndPtr = some removed then some before
            else (k.priorityQueueArray level).qEndPtr, (k.priorityQueueArray level).length - 1⟩
        update removed fun pcb => { pcb with nextPcbPtr := none }
        return some removed : KernelM (Option PcbPtr)) k = some (some removed, k') ∧
      Moves k level list k' (front ++ before :: back) := by
  subst split
  have distinct := (List.nodup_append.mp rep.nodup).2.1
  have apart : removed ≠ before := by
    intro same
    exact (List.nodup_cons.mp distinct).1 (same ▸ List.mem_cons_self)
  obtain ⟨beforePcb, found⟩ := rep.found (show before ∈ front ++ before :: removed :: back by simp)
  obtain ⟨pcb, found'⟩ := rep.found (show removed ∈ front ++ before :: removed :: back by simp)
  rw [Prog.bind_of_run (deref_run found'), Prog.bind_of_run (update_run found), Prog.modify_bind]
  generalize isQueue : PcbQueue.mk (some first) (if (k.priorityQueueArray level).qEndPtr = some removed
    then some before else (k.priorityQueueArray level).qEndPtr)
    ((k.priorityQueueArray level).length - 1) = queue
  have still : ((k.setPcb before { beforePcb with nextPcbPtr := pcb.nextPcbPtr }).setQueue level
      queue).pcbs removed = some pcb := (Function.update_of_ne apart _ _).trans found'
  rw [Prog.bind_of_run (update_run still)]
  refine ⟨_, rfl, ?_⟩
  have linked : (k.setPcb before { beforePcb with nextPcbPtr := pcb.nextPcbPtr }).next =
      Function.update k.next before (k.next removed) := by
    rw [next_of_found found']
    exact next_setPcb k before _
  have next := next_setPcb ((k.setPcb before { beforePcb with nextPcbPtr := pcb.nextPcbPtr }).setQueue
    level queue) removed { pcb with nextPcbPtr := none }
  rw [show ((k.setPcb before { beforePcb with nextPcbPtr := pcb.nextPcbPtr }).setQueue level queue).next =
    Function.update k.next before (k.next removed) from linked] at next
  have same := (setLink_sameButLinks found pcb.nextPcbPtr).trans
    ((setQueue_sameButLinks _ level queue).trans (setLink_sameButLinks still none))
  have absent : removed ∉ front ++ before :: back := by
    have moved : (removed :: (front ++ before :: back)).Nodup := by
      apply rep.nodup.perm
      have middle := @List.perm_middle _ removed (front ++ [before]) back
      rwa [List.append_assoc, List.append_assoc] at middle
    exact (List.nodup_cons.mp moved).1
  apply moves_of_record same rfl
  · simp
  · rw [next, ← isQueue, ← isHead]
    exact rep.links.unlink.frame absent
  · rw [← isQueue]
    simp only [rep.length, List.length_append, List.length_cons]
    omega
  · rw [← isQueue, rep.last]
    cases back with
    | nil => simp
    | cons node back =>
        have inner : (front ++ before :: removed :: node :: back).getLast? = (node :: back).getLast? := by
          simp [List.getLast?_append, List.getLast?_cons]
        have differs : (node :: back).getLast? ≠ some removed := by
          intro isLast
          have member := List.mem_of_getLast? isLast
          exact (List.nodup_cons.mp (List.nodup_cons.mp distinct).2).1 member
        dsimp only
        rw [inner, if_neg differs]
        simp [List.getLast?_append, List.getLast?_cons]
  · intro node here
    apply rep.allocated
    simp only [List.mem_append, List.mem_cons] at here ⊢
    rcases here with early | same | late
    · exact .inl early
    · exact .inr (.inl same)
    · exact .inr (.inr (.inr late))
  · intro node outside
    simp only [List.mem_append, List.mem_cons, not_or] at outside
    rw [next]
    by_cases here : node = removed
    · rw [here, Function.update_self, if_pos (by simp)]
    · rw [Function.update_of_ne here, Function.update_of_ne outside.2.1, if_neg]
      simp [outside, here]

/-- `pcb_queue_pop_by_pid` -/
theorem Represents.popByPid (rep : Represents k level list) (pid : Int) :
    ∃ k', pcbQueuePopByPid level pid k = some (list.find? (k.hasPid pid), k') ∧
      Moves k level list k' (list.eraseP (k.hasPid pid)) := by
  rw [pcbQueuePopByPid, Prog.get_bind]
  cases list with
  | nil =>
      rw [rep.length]
      exact ⟨k, rfl, rep.moves_refl⟩
  | cons first rest =>
      obtain ⟨isHead, links⟩ := rep.links
      obtain ⟨pcb, found⟩ := rep.found List.mem_cons_self
      have filled : ¬ (k.priorityQueueArray level).length = 0 := by simp [rep.length]
      simp only [filled, ↓reduceIte]
      rw [show (k.priorityQueueArray level).qHeadPtr = some first from isHead]
      dsimp only
      rw [Prog.bind_of_run (deref_run found)]
      by_cases here : pcb.pid = pid
      · have hit : k.hasPid pid first = true := by simp [hasPid_of_found found, here]
        rw [if_pos here, List.find?_cons_of_pos hit, List.eraseP_cons_of_pos hit]
        exact rep.pop
      have differs : ¬ k.hasPid pid first = true := by simp [hasPid_of_found found, here]
      have enough : rest.length < k.linkFuel := by
        have short := rep.length_le
        rw [KernelState.linkFuel]
        rw [List.length_cons] at short
        omega
      have whole : Links k.next (some first) (first :: rest) := ⟨rfl, links⟩
      obtain ⟨result, searched⟩ := @beforePidLoop_total _ pid _ _ _ whole (fun _ => rep.found) enough
      have outcome := beforePidLoop_inv whole searched
      rw [if_neg here, Prog.bind_of_run searched]
      cases result with
      | none =>
          have absent : ∀ node ∈ first :: rest, ¬ k.hasPid pid node = true := by
            simp only [List.mem_cons, forall_eq_or_imp]
            exact ⟨differs, fun node member => by simp [outcome node member]⟩
          rw [List.find?_eq_none.mpr absent, List.eraseP_of_forall_not absent]
          exact ⟨k, rfl, rep.moves_refl⟩
      | some pair =>
          obtain ⟨before, removed⟩ := pair
          obtain ⟨front, back, split, erased, finds⟩ := outcome.first differs
          rw [finds, erased]
          exact rep.cut split isHead

/-- One operation, with what it answers. -/
def queueOp (level : Level) : Fifo.Op PcbPtr Int → KernelM (Fifo.Answer PcbPtr)
  | .push ptr => do
      pcbQueuePush level ptr
      return .done
  | .pop => do
      let result ← pcbQueuePop level
      return .taken result
  | .popBy pid => do
      let result ← pcbQueuePopByPid level pid
      return .taken result
  | .contains ptr => do
      let found ← pcbInQueue ptr level
      return .found found

def queueOps (level : Level) : List (Fifo.Op PcbPtr Int) → KernelM (List (Fifo.Answer PcbPtr))
  | [] => return []
  | op :: rest => do
      let answer ← queueOp level op
      let answers ← queueOps level rest
      return answer :: answers

/-- A PCB that may be pushed: one of the queue, or one without a link. -/
def Pushable (k : KernelState) (list : List PcbPtr) (ptr : PcbPtr) : Prop :=
  k.Allocated ptr ∧ (k.next ptr = none ∨ ptr ∈ list)

theorem Moves.pushable (moves : Moves k level list k' list') (ready : Pushable k list ptr) :
    Pushable k' list' ptr := by
  refine ⟨moves.same.allocated.mpr ready.1, ?_⟩
  by_cases member : ptr ∈ list'
  · exact .inr member
  · left
    rw [moves.loose ptr member]
    by_cases earlier : ptr ∈ list
    · rw [if_pos earlier]
    · rw [if_neg earlier]
      exact ready.2.resolve_right earlier

variable {op : Fifo.Op PcbPtr Int} {ops : List (Fifo.Op PcbPtr Int)}

theorem Represents.operate (rep : Represents k level list)
    (ready : ∀ ptr, op = .push ptr → Pushable k list ptr) :
    ∃ k', queueOp level op k = some ((Fifo.step k.hasPid op list).1, k') ∧
      Moves k level list k' (Fifo.step k.hasPid op list).2 := by
  cases op with
  | push ptr =>
      obtain ⟨allocated, loose⟩ := ready ptr rfl
      obtain ⟨k', run, moves⟩ := rep.push fun outside => ⟨allocated, loose.resolve_right outside⟩
      exact ⟨k', by rw [queueOp, Prog.bind_of_run run]; rfl, moves⟩
  | pop =>
      obtain ⟨k', run, moves⟩ := rep.pop
      exact ⟨k', by rw [queueOp, Prog.bind_of_run run]; rfl, moves⟩
  | popBy pid =>
      obtain ⟨k', run, moves⟩ := rep.popByPid pid
      exact ⟨k', by rw [queueOp, Prog.bind_of_run run]; rfl, moves⟩
  | contains ptr =>
      exact ⟨k, by rw [queueOp, Prog.bind_of_run (rep.contains ptr)]; rfl, rep.moves_refl⟩

/-- Several operations: by induction on them, with the PCBs that may be pushed carried along. -/
theorem Represents.operations (rep : Represents k level list)
    (ready : ∀ ptr, .push ptr ∈ ops → Pushable k list ptr) :
    ∃ k', queueOps level ops k = some ((Fifo.run k.hasPid ops list).1, k') ∧
      Represents k' level (Fifo.run k.hasPid ops list).2 ∧ SameButLinks k k' ∧
      ∀ ptr, Pushable k list ptr → Pushable k' (Fifo.run k.hasPid ops list).2 ptr := by
  induction ops generalizing k list with
  | nil => exact ⟨k, rfl, rep, .refl k, fun _ => id⟩
  | cons op rest ih =>
      have now : ∀ ptr, op = .push ptr → Pushable k list ptr := by
        rintro ptr rfl
        exact ready ptr List.mem_cons_self
      obtain ⟨k1, run1, moves⟩ := rep.operate now
      have later : ∀ ptr, .push ptr ∈ rest → Pushable k1 (Fifo.step k.hasPid op list).2 ptr := by
        intro ptr member
        exact moves.pushable (ready ptr (List.mem_cons_of_mem _ member))
      obtain ⟨k2, run2, rep2, same2, kept⟩ := ih moves.represents later
      have pids : k1.hasPid = k.hasPid := funext moves.same.hasPid
      rw [pids] at run2 rep2 kept
      refine ⟨k2, ?_, rep2, moves.same.trans same2, fun ptr before => kept ptr (moves.pushable before)⟩
      rw [queueOps, Prog.bind_of_run run1, Prog.bind_of_run run2]
      rfl

/-- After any operations on it the queue answers and changes as the first-in first-out queue of its
PCBs does. -/
theorem queue_fifo (rep : Represents k level list)
    (ready : ∀ ptr, .push ptr ∈ ops ++ [op] → Pushable k list ptr) :
    ∃ mid k', queueOps level ops k = some ((Fifo.run k.hasPid ops list).1, mid) ∧
      Represents mid level (Fifo.run k.hasPid ops list).2 ∧
      queueOp level op mid = some ((Fifo.step k.hasPid op (Fifo.run k.hasPid ops list).2).1, k') ∧
      Represents k' level (Fifo.step k.hasPid op (Fifo.run k.hasPid ops list).2).2 ∧
      (∀ ptr, (Fifo.step k.hasPid op (Fifo.run k.hasPid ops list).2).1 = .taken (some ptr) →
        k'.next ptr = none) ∧
      ((Fifo.step k.hasPid op (Fifo.run k.hasPid ops list).2).2 = (Fifo.run k.hasPid ops list).2 →
        k' = mid) ∧
      ((Fifo.step k.hasPid op (Fifo.run k.hasPid ops list).2).1 = .taken none → k' = mid) := by
  obtain ⟨mid, run, rep', same, kept⟩ := rep.operations fun ptr member =>
    ready ptr (List.mem_append_left [op] member)
  have now : ∀ ptr, op = .push ptr → Pushable mid (Fifo.run k.hasPid ops list).2 ptr := by
    rintro ptr rfl
    exact kept ptr (ready ptr (by simp))
  obtain ⟨k', last, moves⟩ := rep'.operate now
  have pids : mid.hasPid = k.hasPid := funext same.hasPid
  rw [pids] at last moves
  refine ⟨mid, k', run, rep', last, moves.represents, ?_, moves.still, ?_⟩
  · intro ptr taken
    obtain ⟨member, gone⟩ := Fifo.step_taken rep'.nodup taken
    rw [moves.loose ptr gone, if_pos member]
  · intro nothing
    exact moves.still (Fifo.step_none nothing)

theorem boot_represents : Represents .boot 0 [0] where
  links := ⟨rfl, rfl⟩
  allocated ptr member := by
    obtain rfl := List.mem_singleton.mp member
    exact ⟨Nat.zero_lt_one, initPcb, rfl⟩
  length := rfl
  last := rfl

/-- A state with four PCBs in no queue. -/
def looseProcesses : KernelState :=
  { KernelState.boot with
    pcbs ptr := if ptr < 4 then some { initPcb with pid := ptr + 1, priorityLevel := 1 } else none
    priorityQueueArray _ := ⟨none, none, 0⟩
    allUnreapedPcbVector := [0, 1, 2, 3]
    nextPtr := 4 }

theorem looseProcesses_represents : Represents looseProcesses 1 [] where
  links := rfl
  allocated := by simp
  length := rfl
  last := rfl

/-- Pushes, a push again, a removal from the middle, and a search for what was removed. -/
def queueUse : List (Fifo.Op PcbPtr Int) :=
  [.push 0, .push 1, .push 2, .push 1, .popBy 2, .contains 1, .push 3, .pop]

theorem queue_fifo_looseProcesses :
    ∃ mid k', queueOps 1 queueUse looseProcesses = some ([.done, .done, .done, .done,
        .taken (some 1), .found false, .done, .taken (some 0)], mid) ∧
      Represents mid 1 [2, 3] ∧ queueOp 1 .pop mid = some (.taken (some 2), k') ∧
      Represents k' 1 [3] ∧ k'.next 2 = none := by
  have ready : ∀ ptr, .push ptr ∈ queueUse ++ [.pop] → Pushable looseProcesses [] ptr := by
    intro ptr member
    have pushed : ptr = 0 ∨ ptr = 1 ∨ ptr = 2 ∨ ptr = 1 ∨ ptr = 3 := by
      simpa [queueUse] using member
    rcases pushed with rfl | rfl | rfl | rfl | rfl
    all_goals exact ⟨⟨by decide, _, rfl⟩, .inl rfl⟩
  obtain ⟨mid, k', first, between, last, after, loose, _⟩ :=
    queue_fifo looseProcesses_represents ready
  exact ⟨mid, k', first, between, last, after, loose 2 rfl⟩

end Operations

end PennOs.Kernel
