import PennOs.Kernel.QueueFrames
import PennOs.Lib.LinkedForest

set_option autoImplicit false

/- The ready queues as lists of PCBs. -/
namespace PennOs.Kernel

open LinkedChain (Links Forest)

variable {k k' : KernelState} {ptr : PcbPtr} {level : Level} {lists : Level → List PcbPtr}

def KernelState.head (k : KernelState) (level : Level) : Option PcbPtr :=
  (k.priorityQueueArray level).qHeadPtr

/-- `lists level` are the PCBs of a queue in order; a PCB in no queue has no link. -/
structure Intact (k : KernelState) (lists : Level → List PcbPtr) : Prop where
  forest : Forest k.next k.head lists
  length : ∀ level, (k.priorityQueueArray level).length = (lists level).length
  last : ∀ level, (k.priorityQueueArray level).qEndPtr = (lists level).getLast?
  loose : ∀ ptr, (∀ level, ptr ∉ lists level) → k.next ptr = none

theorem next_of_found {pcb : Pcb} (found : k.pcbs ptr = some pcb) :
    k.next ptr = pcb.nextPcbPtr := by
  simp only [KernelState.next, found, Option.bind_some]

theorem next_setPcb (k : KernelState) (ptr : PcbPtr) (pcb : Pcb) :
    (k.setPcb ptr pcb).next = Function.update k.next ptr pcb.nextPcbPtr := by
  funext other
  simp only [KernelState.next, setPcb_pcbs, Function.update_apply]
  split <;> rfl

theorem next_updateLink {target : Option PcbPtr}
    (run : update ptr (fun pcb => { pcb with nextPcbPtr := target }) k = some ((), k')) :
    k'.next = Function.update k.next ptr target ∧ k'.priorityQueueArray = k.priorityQueueArray := by
  obtain ⟨pcb, _, rfl⟩ := update_inv run
  exact ⟨next_setPcb _ _ _, rfl⟩

theorem head_setQueue (k : KernelState) (level : Level) (queue : PcbQueue) :
    (k.setQueue level queue).head = Function.update k.head level queue.qHeadPtr := by
  funext other
  simp only [KernelState.head, KernelState.setQueue, Function.update_apply]
  split <;> rfl

/-- One queue is changed. -/
theorem Intact.change (intact : Intact k lists) (queue : PcbQueue) {list : List PcbPtr}
    (queues : k'.priorityQueueArray = Function.update k.priorityQueueArray level queue)
    (forest : Forest k'.next (Function.update k.head level queue.qHeadPtr)
      (Function.update lists level list))
    (length : queue.length = list.length) (last : queue.qEndPtr = list.getLast?)
    (loose : ∀ ptr, (∀ other, ptr ∉ Function.update lists level list other) →
      k'.next ptr = none) :
    Intact k' (Function.update lists level list) where
  forest := by
    have heads : k'.head = Function.update k.head level queue.qHeadPtr := by
      rw [← head_setQueue]
      funext other
      simp only [KernelState.head, KernelState.setQueue, queues]
    exact heads ▸ forest
  length other := by
    rw [queues, Function.update_apply, Function.update_apply]
    split
    · exact length
    · exact intact.length other
  last other := by
    rw [queues, Function.update_apply, Function.update_apply]
    split
    · exact last
    · exact intact.last other
  loose := loose

theorem Intact.of_same (intact : Intact k lists) (next : k'.next = k.next)
    (queues : k'.priorityQueueArray = k.priorityQueueArray) : Intact k' lists where
  forest := by
    have heads : k'.head = k.head := by
      funext level
      simp only [KernelState.head, queues]
    exact heads ▸ next ▸ intact.forest
  length := queues ▸ intact.length
  last := queues ▸ intact.last
  loose := next ▸ intact.loose

theorem inQueueLoop_inv {self : PcbPtr} {fuel : Nat} {curr : Option PcbPtr}
    {list : List PcbPtr} {found : Bool} (links : Links k.next curr list)
    (run : inQueueLoop self fuel curr k = some (found, k')) : found = decide (self ∈ list) := by
  induction list generalizing fuel curr with
  | nil =>
      obtain rfl : curr = none := links
      cases fuel <;> simp_all [inQueueLoop]
  | cons node rest ih =>
      obtain ⟨rfl, tail⟩ := links
      cases fuel with
      | zero => simp [inQueueLoop] at run
      | succ fuel =>
          by_cases here : node = self
          · simp only [inQueueLoop, here, ↓reduceIte, Prog.pure_run, Option.some.injEq,
              Prod.mk.injEq] at run
            simp [here, ← run.1]
          · simp only [inQueueLoop, here, ↓reduceIte] at run
            obtain ⟨pcb, k1, read, run⟩ := Prog.bind_inv run
            obtain ⟨present, rfl⟩ := deref_inv read
            rw [next_of_found present] at tail
            rw [ih tail run]
            simp [Ne.symm here]

theorem pcbInQueue_inv {found : Bool} (intact : Intact k lists)
    (run : pcbInQueue ptr level k = some (found, k')) : found = decide (ptr ∈ lists level) :=
  inQueueLoop_inv (intact.forest.links level) run

/-- The lists after `pcb_queue_push`. -/
def pushed (lists : Level → List PcbPtr) (level : Level) (ptr : PcbPtr) : Level → List PcbPtr :=
  if ptr ∈ lists level then lists
  else Function.update lists level (lists level ++ [ptr])

theorem pcbQueuePush_intact (intact : Intact k lists)
    (elsewhere : ∀ other, other ≠ level → ptr ∉ lists other)
    (run : pcbQueuePush level ptr k = some ((), k')) : Intact k' (pushed lists level ptr) := by
  obtain ⟨queued, k1, searched, run⟩ := Prog.bind_inv run
  have answer := pcbInQueue_inv intact searched
  obtain rfl := pcbInQueue_state searched
  by_cases member : ptr ∈ lists level
  · rw [pushed, if_pos member]
    simp only [answer, member, decide_true, ↓reduceIte, Prog.pure_run, Option.some.injEq,
      Prod.mk.injEq, true_and] at run
    exact run ▸ intact
  rw [pushed, if_neg member]
  have fresh : ∀ other, ptr ∉ lists other := by
    intro other
    by_cases same : other = level
    · exact same ▸ member
    · exact elsewhere other same
  have ends := intact.loose ptr fresh
  have loose : ∀ other, (∀ at_, other ∉ Function.update lists level (lists level ++ [ptr]) at_) →
      other ≠ ptr ∧ ∀ at_, other ∉ lists at_ := by
    intro other outside
    have here := outside level
    simp only [Function.update_self, List.mem_append, List.mem_singleton, not_or] at here
    refine ⟨here.2, fun at_ => ?_⟩
    by_cases same : at_ = level
    · exact same ▸ here.1
    · have there := outside at_
      rwa [Function.update_of_ne same] at there
  simp only [answer, member, decide_false, Bool.false_eq_true, ↓reduceIte, Prog.get_bind] at run
  by_cases empty : (k.priorityQueueArray level).length = 0
  · have nothing : lists level = [] := List.length_eq_zero_iff.mp (intact.length level ▸ empty)
    simp only [empty, ↓reduceIte, Prog.modify_run, Option.some.injEq, Prod.mk.injEq,
      true_and] at run
    subst run
    rw [nothing, List.nil_append] at loose ⊢
    refine intact.change ⟨some ptr, some ptr, 0 + 1⟩ rfl ?_ rfl rfl
      fun other outside => intact.loose other (loose other outside).2
    exact intact.forest.plant (fun _ _ => rfl) ends fresh
  · simp only [empty, ↓reduceIte] at run
    cases tail : (k.priorityQueueArray level).qEndPtr with
    | none => simp [tail] at run
    | some last =>
        simp only [tail] at run
        obtain ⟨_, k2, linked, run⟩ := Prog.bind_inv run
        simp only [Prog.modify_run, Option.some.injEq, Prod.mk.injEq, true_and] at run
        obtain ⟨next, queues⟩ := next_updateLink linked
        subst run
        obtain ⟨front, split⟩ : ∃ front, lists level = front ++ [last] :=
          List.getLast?_eq_some_iff.mp ((intact.last level).symm.trans tail)
        refine intact.change ⟨(k.priorityQueueArray level).qHeadPtr, some ptr, _⟩
          (by rw [KernelState.setQueue, queues]) ?_ ?_ (by simp) fun other outside => ?_
        · have grown := intact.forest.push split fresh ends
          have heads : Function.update k.head level (k.priorityQueueArray level).qHeadPtr = k.head :=
            Function.update_eq_self level k.head
          rw [heads]
          exact next ▸ grown
        · simp [intact.length level]
        · obtain ⟨_, free⟩ := loose other outside
          have apart : other ≠ last := by
            rintro rfl
            exact free level (by simp [split])
          change k2.next other = none
          rw [next, Function.update_of_ne apart]
          exact intact.loose other free

theorem pcbQueuePop_intact {result : Option PcbPtr} (intact : Intact k lists)
    (run : pcbQueuePop level k = some (result, k')) :
    result = (lists level).head? ∧
      Intact k' (Function.update lists level (lists level).tail) := by
  simp only [pcbQueuePop, Prog.get_bind] at run
  cases list : lists level with
  | nil =>
      have empty : (k.priorityQueueArray level).length = 0 := by simp [intact.length, list]
      simp only [empty, ↓reduceIte, Prog.pure_run, Option.some.injEq, Prod.mk.injEq] at run
      obtain ⟨rfl, rfl⟩ := run
      refine ⟨rfl, ?_⟩
      rw [List.tail_nil, ← list, Function.update_eq_self]
      exact intact
  | cons first rest =>
      have head : (k.priorityQueueArray level).qHeadPtr = some first := by
        have links := intact.forest.links level
        rw [list] at links
        exact links.1
      have length : (k.priorityQueueArray level).length = rest.length + 1 := by
        simp [intact.length, list]
      simp only [length, Nat.add_one_ne_zero, ↓reduceIte, head] at run
      obtain ⟨pcb, k1, read, run⟩ := Prog.bind_inv run
      obtain ⟨found, rfl⟩ := deref_inv read
      rw [Prog.modify_bind] at run
      obtain ⟨_, k2, unlinked, run⟩ := Prog.bind_inv run
      simp only [Prog.pure_run, Option.some.injEq, Prod.mk.injEq] at run
      obtain ⟨rfl, rfl⟩ := run
      obtain ⟨next, queues⟩ := next_updateLink unlinked
      refine ⟨rfl, intact.change _ queues ?_ (by simp) ?_ fun other outside => ?_⟩
      · have popped := intact.forest.pop list
        rw [next_of_found found] at popped
        rw [next]
        exact popped
      · cases rest with
        | nil => simp
        | cons second rest =>
            have ends : (k.priorityQueueArray level).qEndPtr = (second :: rest).getLast? := by
              rw [intact.last, list, List.getLast?_cons_cons]
            simpa using ends
      · rw [next]
        by_cases same : other = first
        · rw [same, Function.update_self]
        · rw [Function.update_of_ne same]
          change k.next other = none
          refine intact.loose other fun at_ => ?_
          have there := outside at_
          by_cases here : at_ = level
          · rw [here, Function.update_self] at there
            rw [here, list]
            rw [List.tail_cons] at there
            simp [same, there]
          · rwa [Function.update_of_ne here] at there

/-- The PCB has this PID. -/
def KernelState.hasPid (k : KernelState) (pid : Int) (ptr : PcbPtr) : Bool :=
  match k.pcbs ptr with
  | none => false
  | some pcb => decide (pcb.pid = pid)

theorem hasPid_of_found {pcb : Pcb} {pid : Int} (found : k.pcbs ptr = some pcb) :
    k.hasPid pid ptr = decide (pcb.pid = pid) := by
  simp only [KernelState.hasPid, found]

/-- What the search of `pcb_queue_pop_by_pid` may find behind the head of `list`. -/
def FoundBefore (k : KernelState) (pid : Int) (list : List PcbPtr) :
    Option (PcbPtr × PcbPtr) → Prop
  | none => ∀ node ∈ list.tail, k.hasPid pid node = false
  | some (before, removed) => ∃ front back,
      list = front ++ before :: removed :: back ∧ k.hasPid pid removed = true ∧
        ∀ node ∈ (front ++ [before]).tail, k.hasPid pid node = false

theorem beforePidLoop_inv {pid : Int} {fuel : Nat} {curr : PcbPtr} {rest : List PcbPtr}
    {result : Option (PcbPtr × PcbPtr)} (links : Links k.next (some curr) (curr :: rest))
    (run : beforePidLoop pid fuel curr k = some (result, k')) :
    FoundBefore k pid (curr :: rest) result := by
  induction rest generalizing fuel curr with
  | nil =>
      cases fuel with
      | zero => simp [beforePidLoop] at run
      | succ fuel =>
          obtain ⟨pcb, k1, read, run⟩ := Prog.bind_inv run
          obtain ⟨found, rfl⟩ := deref_inv read
          have stop : pcb.nextPcbPtr = none := by
            rw [← next_of_found found]
            exact links.2
          simp only [stop, Prog.pure_run, Option.some.injEq, Prod.mk.injEq] at run
          obtain ⟨rfl, _⟩ := run
          simp [FoundBefore]
  | cons after rest ih =>
      cases fuel with
      | zero => simp [beforePidLoop] at run
      | succ fuel =>
          obtain ⟨pcb, k1, read, run⟩ := Prog.bind_inv run
          obtain ⟨found, rfl⟩ := deref_inv read
          have tail := links.2
          rw [next_of_found found] at tail
          have link : pcb.nextPcbPtr = some after := tail.1
          simp only [link] at run
          obtain ⟨nextPcb, k2, read', run⟩ := Prog.bind_inv run
          obtain ⟨found', rfl⟩ := deref_inv read'
          by_cases here : nextPcb.pid = pid
          · simp only [here, ↓reduceIte, Prog.pure_run, Option.some.injEq, Prod.mk.injEq] at run
            obtain ⟨rfl, _⟩ := run
            exact ⟨[], rest, rfl, by simp [hasPid_of_found found', here], by simp⟩
          · simp only [here, ↓reduceIte] at run
            have other : k.hasPid pid after = false := by simp [hasPid_of_found found', here]
            have later := ih (link ▸ tail) run
            cases result with
            | none =>
                simp only [FoundBefore, List.tail_cons, List.mem_cons, forall_eq_or_imp]
                exact ⟨other, later⟩
            | some pair =>
                obtain ⟨front, back, split, hit, before⟩ := later
                refine ⟨curr :: front, back, by simp [split], hit, ?_⟩
                intro node member
                cases front with
                | nil =>
                    simp only [List.nil_append, List.cons.injEq] at split
                    have same : node = after := by
                      rw [split.1]
                      simpa using member
                    exact same ▸ other
                | cons first front =>
                    simp only [List.cons_append, List.cons.injEq] at split
                    simp only [List.cons_append, List.tail_cons, List.mem_cons] at member before
                    rcases member with rfl | deeper
                    · exact split.1 ▸ other
                    · exact before node deeper

/-- With the head looked at first, the PCB found is the first one with the PID. -/
theorem FoundBefore.first {pid : Int} {first before removed : PcbPtr} {rest : List PcbPtr}
    (outcome : FoundBefore k pid (first :: rest) (some (before, removed)))
    (differs : ¬ k.hasPid pid first = true) :
    ∃ front back, first :: rest = front ++ before :: removed :: back ∧
      (first :: rest).eraseP (k.hasPid pid) = front ++ before :: back ∧
      (first :: rest).find? (k.hasPid pid) = some removed := by
  obtain ⟨front, back, split, hit, earlier⟩ := outcome
  have prior : ∀ node ∈ front ++ [before], ¬ k.hasPid pid node = true := by
    intro node member
    cases front with
    | nil =>
        simp only [List.nil_append, List.cons.injEq] at split
        simp only [List.nil_append, List.mem_singleton] at member
        rw [member, ← split.1]
        exact differs
    | cons node' front =>
        simp only [List.cons_append, List.cons.injEq] at split
        simp only [List.cons_append, List.tail_cons, List.mem_cons] at member earlier
        rcases member with rfl | deeper
        · exact split.1 ▸ differs
        · simp [earlier node deeper]
  have regroup : front ++ before :: removed :: back = (front ++ [before]) ++ removed :: back := by simp
  refine ⟨front, back, split, ?_, ?_⟩
  · rw [split, regroup, List.eraseP_append_right _ prior, List.eraseP_cons_of_pos hit]
    simp
  · rw [split, regroup, List.find?_append, List.find?_eq_none.mpr prior, List.find?_cons_of_pos hit]
    rfl

/-- `pcb_queue_pop_by_pid` takes out the first PCB with the PID. -/
theorem pcbQueuePopByPid_intact {pid : Int} {result : Option PcbPtr} (intact : Intact k lists)
    (run : pcbQueuePopByPid level pid k = some (result, k')) :
    Intact k' (Function.update lists level ((lists level).eraseP (k.hasPid pid))) := by
  simp only [pcbQueuePopByPid, Prog.get_bind] at run
  cases list : lists level with
  | nil =>
      have empty : (k.priorityQueueArray level).length = 0 := by simp [intact.length, list]
      simp only [empty, ↓reduceIte, Prog.pure_run, Option.some.injEq, Prod.mk.injEq] at run
      obtain ⟨rfl, rfl⟩ := run
      rw [List.eraseP_nil, ← list, Function.update_eq_self]
      exact intact
  | cons first rest =>
      have links : Links k.next (some first) (first :: rest) := by
        have links := intact.forest.links level
        rw [list] at links
        exact ⟨rfl, links.2⟩
      have head : (k.priorityQueueArray level).qHeadPtr = some first := by
        have links := intact.forest.links level
        rw [list] at links
        exact links.1
      have length : (k.priorityQueueArray level).length = rest.length + 1 := by
        simp [intact.length, list]
      simp only [length, Nat.add_one_ne_zero, ↓reduceIte, head] at run
      obtain ⟨pcb, k1, read, run⟩ := Prog.bind_inv run
      obtain ⟨found, rfl⟩ := deref_inv read
      by_cases here : pcb.pid = pid
      · simp only [here, ↓reduceIte] at run
        rw [List.eraseP_cons_of_pos (by simp [hasPid_of_found found, here])]
        have popped := (pcbQueuePop_intact intact run).2
        rwa [list] at popped
      simp only [here, ↓reduceIte] at run
      have differs : ¬ k.hasPid pid first = true := by simp [hasPid_of_found found, here]
      obtain ⟨hit, k2, searched, run⟩ := Prog.bind_inv run
      have outcome := beforePidLoop_inv links searched
      obtain rfl := beforePidLoop_state searched
      cases hit with
      | none =>
          simp only [Prog.pure_run, Option.some.injEq, Prod.mk.injEq] at run
          obtain ⟨_, rfl⟩ := run
          have absent : ∀ node ∈ first :: rest, ¬ k.hasPid pid node = true := by
            simp only [List.mem_cons, forall_eq_or_imp]
            exact ⟨differs, fun node member => by simp [outcome node member]⟩
          rw [List.eraseP_of_forall_not absent, ← list, Function.update_eq_self]
          exact intact
      | some pair =>
          obtain ⟨before, removed⟩ := pair
          obtain ⟨front, back, split, erased, _⟩ := outcome.first differs
          obtain ⟨resultPcb, k3, read', run⟩ := Prog.bind_inv run
          obtain ⟨found', rfl⟩ := deref_inv read'
          obtain ⟨_, k4, linked, run⟩ := Prog.bind_inv run
          rw [Prog.modify_bind] at run
          obtain ⟨_, k5, unlinked, run⟩ := Prog.bind_inv run
          simp only [Prog.pure_run, Option.some.injEq, Prod.mk.injEq] at run
          obtain ⟨_, rfl⟩ := run
          obtain ⟨next, queues⟩ := next_updateLink linked
          obtain ⟨next', queues'⟩ := next_updateLink unlinked
          have distinct := links.nodup
          rw [split] at distinct
          rw [erased]
          refine intact.change ⟨some first,
            if (k.priorityQueueArray level).qEndPtr = some removed then some before
            else (k.priorityQueueArray level).qEndPtr, rest.length + 1 - 1⟩
            (by rw [queues', KernelState.setQueue, queues]) ?_ ?_ ?_ fun other outside => ?_
          · have cut := intact.forest.unlink (list.trans split)
            have heads : Function.update k.head level (some first) = k.head := by
              rw [← head]
              exact Function.update_eq_self level k.head
            have nexts : k5.next = Function.update
                (Function.update k.next before (k.next removed)) removed none := by
              rw [next', next_of_found found', ← next]
              rfl
            rw [heads, nexts]
            exact cut
          · have lengths := congrArg List.length split
            simp only [List.length_cons, List.length_append] at lengths ⊢
            omega
          · rw [intact.last, list, split]
            cases back with
            | nil => simp
            | cons node back =>
                have apart : (front ++ before :: removed :: node :: back).getLast?
                    ≠ some removed := by
                  intro same
                  have member : removed ∈ node :: back := by
                    apply List.mem_of_getLast?
                    rw [← same]
                    simp [List.getLast?_cons]
                  simp only [List.nodup_append, List.nodup_cons] at distinct
                  exact distinct.2.1.2.1 member
                simp only
                rw [if_neg apart]
                simp [List.getLast?_append]
          · have nexts : k5.next = Function.update
                (Function.update k.next before (k.next removed)) removed none := by
              rw [next', next_of_found found', ← next]
              rfl
            rw [nexts]
            by_cases same : other = removed
            · rw [same, Function.update_self]
            · have apart : other ≠ before := by
                rintro rfl
                have there := outside level
                simp at there
              rw [Function.update_of_ne same, Function.update_of_ne apart]
              refine intact.loose other fun at_ => ?_
              have there := outside at_
              by_cases here' : at_ = level
              · rw [here', Function.update_self] at there
                rw [here', list, split]
                simp only [List.mem_append, List.mem_cons, not_or] at there ⊢
                exact ⟨there.1, there.2.1, same, there.2.2⟩
              · rwa [Function.update_of_ne here'] at there

end PennOs.Kernel
