import PennOs.Kernel.QueueFifo
import PennOs.Kernel.Roster

set_option autoImplicit false

/- The whole of a maintenance pass from any state with sound queues. -/
namespace PennOs.Kernel

variable {k k' k'' : KernelState} {ptr other : PcbPtr} {level : Level} {pcb : Pcb}
  {lists lists' lists'' : Level → List PcbPtr} {front rest : List PcbPtr} {clock : UInt32}

namespace KernelState

def priority (k : KernelState) (ptr : PcbPtr) : Option Level := (k.pcbs ptr).map Pcb.priorityLevel

/-- A PCB without its link. -/
def core (k : KernelState) (ptr : PcbPtr) : Option Pcb := (k.pcbs ptr).map Pcb.core

def isReaped (k : KernelState) (ptr : PcbPtr) : Bool :=
  (k.core ptr).any fun pcb => decide (pcb.status = .reaped)

end KernelState

/-- The scheduler's PCBs: those of the vector are distinct and have distinct PIDs, no queue holds
another PCB with such a PID, and each is queued at most in the queue of its priority. -/
structure Tidy (k : KernelState) (lists : Level → List PcbPtr) : Prop where
  intact : Intact k lists
  queued : ∀ level, ∀ ptr ∈ lists level, k.Allocated ptr
  listed : ∀ ptr ∈ k.allUnreapedPcbVector, k.Allocated ptr
  distinct : k.allUnreapedPcbVector.Nodup
  pids : ∀ ptr ∈ k.allUnreapedPcbVector, ∀ other,
    (other ∈ k.allUnreapedPcbVector ∨ ∃ level, other ∈ lists level) → k.pidAt ptr = k.pidAt other →
      ptr = other
  own : ∀ ptr ∈ k.allUnreapedPcbVector, ∀ level, ptr ∈ lists level → k.priority ptr = some level

/-- PCBs stay where they are, with their PIDs and priorities. -/
structure Alike (k k' : KernelState) : Prop where
  pids : ∀ ptr, k'.pidAt ptr = k.pidAt ptr
  priorities : ∀ ptr, k'.priority ptr = k.priority ptr
  vector : k'.allUnreapedPcbVector = k.allUnreapedPcbVector
  nextPtr : k'.nextPtr = k.nextPtr

section Frames

theorem priority_of_found (found : k.pcbs ptr = some pcb) :
    k.priority ptr = some pcb.priorityLevel := by
  rw [KernelState.priority, found]
  rfl

theorem core_of_found (found : k.pcbs ptr = some pcb) : k.core ptr = some pcb.core := by
  rw [KernelState.core, found]
  rfl

theorem isReaped_of_found (found : k.pcbs ptr = some pcb) :
    k.isReaped ptr = decide (pcb.status = .reaped) := by
  rw [KernelState.isReaped, core_of_found found]
  rfl

theorem pidAt_eq_of_core (same : k'.core ptr = k.core ptr) : k'.pidAt ptr = k.pidAt ptr := by
  have pids := congrArg (Option.map Pcb.pid) same
  rwa [KernelState.core, KernelState.core, Option.map_map, Option.map_map] at pids

theorem priority_eq_of_core (same : k'.core ptr = k.core ptr) : k'.priority ptr = k.priority ptr := by
  have priorities := congrArg (Option.map Pcb.priorityLevel) same
  rwa [KernelState.core, KernelState.core, Option.map_map, Option.map_map] at priorities

theorem isReaped_eq_of_core (same : k'.core ptr = k.core ptr) : k'.isReaped ptr = k.isReaped ptr := by
  rw [KernelState.isReaped, KernelState.isReaped, same]

theorem SameButLinks.alike (same : SameButLinks k k') : Alike k k' where
  pids ptr := pidAt_eq_of_core (same.cores ptr)
  priorities ptr := priority_eq_of_core (same.cores ptr)
  vector := same.vector
  nextPtr := same.nextPtr

theorem Alike.allocated (alike : Alike k k') : k'.Allocated ptr ↔ k.Allocated ptr := by
  have pids := alike.pids ptr
  rw [KernelState.Allocated, KernelState.Allocated, alike.nextPtr]
  apply and_congr_right
  intro _
  rw [← Option.isSome_iff_exists, ← Option.isSome_iff_exists]
  have some_ := congrArg Option.isSome pids
  rw [KernelState.pidAt, KernelState.pidAt, Option.isSome_map, Option.isSome_map] at some_
  rw [some_]

/-- The queues changed; what is new in one belongs there. -/
theorem Tidy.of_alike (tidy : Tidy k lists) (alike : Alike k k') (intact : Intact k' lists')
    (members : ∀ level, ∀ ptr ∈ lists' level,
      ptr ∈ lists level ∨ ptr ∈ k.allUnreapedPcbVector ∧ k.priority ptr = some level) :
    Tidy k' lists' where
  intact := intact
  queued level ptr member := by
    apply alike.allocated.mpr
    rcases members level ptr member with old | ⟨listed, _⟩
    · exact tidy.queued level ptr old
    · exact tidy.listed ptr listed
  listed ptr listed := alike.allocated.mpr (tidy.listed ptr (alike.vector ▸ listed))
  distinct := by
    rw [alike.vector]
    exact tidy.distinct
  pids ptr listed other place same := by
    rw [alike.vector] at listed place
    rw [alike.pids, alike.pids] at same
    apply tidy.pids ptr listed other _ same
    rcases place with inVector | ⟨level, member⟩
    · exact .inl inVector
    · rcases members level other member with old | ⟨inVector, _⟩
      · exact .inr ⟨level, old⟩
      · exact .inl inVector
  own ptr listed level member := by
    rw [alike.vector] at listed
    rw [alike.priorities]
    rcases members level ptr member with old | ⟨_, belongs⟩
    · exact tidy.own ptr listed level old
    · exact belongs

theorem Tidy.represents (tidy : Tidy k lists) (level : Level) : Represents k level (lists level) where
  links := tidy.intact.forest.links level
  allocated := tidy.queued level
  length := tidy.intact.length level
  last := tidy.intact.last level

end Frames

/-- The state after `pcb_vec_remove_by_pcb` and `pcb_destroy`. -/
def KernelState.destroy (k : KernelState) (ptr : PcbPtr) : KernelState :=
  { k with
    allUnreapedPcbVector := k.allUnreapedPcbVector.erase ptr
    pcbs := Function.update k.pcbs ptr none }

/-- What the pass makes of a PCB it keeps. -/
def Pcb.wake (clock : UInt32) (pcb : Pcb) : Pcb :=
  if (pcb.status = .blocked ∧ pcb.sleepStamp ≠ 0) ∧ sleepOver clock pcb = true then
    { pcb with status := .running }
  else pcb

/-- The queues after the turn of a PCB. -/
def turned (lists : Level → List PcbPtr) (clock : UInt32) (ptr : PcbPtr) (pcb : Pcb) :
    Level → List PcbPtr :=
  if pcb.status = .reaped then fun level => (lists level).erase ptr
  else if (pcb.wake clock).status = .running then pushed lists pcb.priorityLevel ptr
  else lists

/-- What the turn of a PCB does. -/
structure PassTurn (k : KernelState) (lists : Level → List PcbPtr) (ptr : PcbPtr) (pcb : Pcb)
    (k' : KernelState) : Prop where
  tidy : Tidy k' (turned lists k.globalClock ptr pcb)
  clock : k'.globalClock = k.globalClock
  vector : k'.allUnreapedPcbVector =
    if pcb.status = .reaped then k.allUnreapedPcbVector.erase ptr else k.allUnreapedPcbVector
  others : ∀ other, other ≠ ptr → k'.core other = k.core other
  here : k'.core ptr = if pcb.status = .reaped then none else some (pcb.wake k.globalClock).core

section Turns

theorem wake_of_not_sleeping (awake : ¬ (pcb.status = .blocked ∧ pcb.sleepStamp ≠ 0)) :
    pcb.wake clock = pcb := by
  rw [Pcb.wake, if_neg]
  exact fun sleeps => awake sleeps.1

/-- A push onto the queue of the PCB's priority. -/
theorem Tidy.push (tidy : Tidy k lists) (listed : ptr ∈ k.allUnreapedPcbVector)
    (found : k.pcbs ptr = some pcb) :
    ∃ k', pcbQueuePush pcb.priorityLevel ptr k = some ((), k') ∧ SameButLinks k k' ∧
      Tidy k' (pushed lists pcb.priorityLevel ptr) := by
  have elsewhere : ∀ other, other ≠ pcb.priorityLevel → ptr ∉ lists other := by
    intro other apart member
    have own := tidy.own ptr listed other member
    rw [priority_of_found found] at own
    exact apart (Option.some.inj own).symm
  have free : ptr ∉ lists pcb.priorityLevel → k.Allocated ptr ∧ k.next ptr = none := by
    intro outside
    refine ⟨tidy.listed ptr listed, tidy.intact.loose ptr fun level => ?_⟩
    by_cases here : level = pcb.priorityLevel
    · rw [here]
      exact outside
    · exact elsewhere level here
  obtain ⟨k', run, moves⟩ := (tidy.represents pcb.priorityLevel).push free
  refine ⟨k', run, moves.same, tidy.of_alike moves.same.alike
    (pcbQueuePush_intact tidy.intact elsewhere run) ?_⟩
  intro level node member
  by_cases here : level = pcb.priorityLevel
  · subst here
    rcases mem_pushed member with old | rfl
    · exact .inl old
    · exact .inr ⟨listed, priority_of_found found⟩
  · rw [pushed_of_ne here] at member
    exact .inl member

/-- A running PCB ends in its queue. -/
theorem Tidy.turn_running (tidy : Tidy k lists) (listed : ptr ∈ k.allUnreapedPcbVector)
    (found : k.pcbs ptr = some pcb) (running : pcb.status = .running) :
    ∃ k', maintain ptr k = some (false, k') ∧ PassTurn k lists ptr pcb k' := by
  obtain ⟨k', run, same, tidy'⟩ := tidy.push listed found
  have queued := (tidy.represents pcb.priorityLevel).contains ptr
  have still : pcb.wake k.globalClock = pcb := by
    apply wake_of_not_sleeping
    simp [running]
  have alive : ¬ pcb.status = .reaped := by simp [running]
  refine ⟨k', ?_, ?_, same.clock, ?_, fun other _ => same.cores other, ?_⟩
  · rw [maintain, Prog.bind_of_run (deref_run found), Prog.get_bind]
    simp only [running, ↓reduceIte]
    rw [Prog.bind_of_run queued]
    by_cases member : ptr ∈ lists pcb.priorityLevel
    · rw [pcbQueuePush, Prog.bind_of_run queued] at run
      simp only [member, decide_true, ↓reduceIte, Prog.pure_run, Option.some.injEq, Prod.mk.injEq,
        true_and] at run
      simp [member, run]
    · simp only [member, decide_false, Bool.not_false, ↓reduceIte]
      rw [Prog.bind_of_run run]
      rfl
  · rw [turned, if_neg alive, still, if_pos running]
    exact tidy'
  · rw [if_neg alive, same.vector]
  · rw [if_neg alive, still]
    exact (same.cores ptr).trans (core_of_found found)

/-- A change of a status. -/
theorem Tidy.setStatus (tidy : Tidy k lists) (found : k.pcbs ptr = some pcb) (status : ThrdStatus) :
    Tidy (k.setPcb ptr { pcb with status := status }) lists := by
  have at_ : ∀ other, (k.setPcb ptr { pcb with status := status }).pcbs other =
      if other = ptr then some { pcb with status := status } else k.pcbs other := by
    intro other
    exact setPcb_pcbs k ptr other _
  have alike : Alike k (k.setPcb ptr { pcb with status := status }) := by
    refine ⟨fun other => ?_, fun other => ?_, rfl, rfl⟩
    · rw [KernelState.pidAt, KernelState.pidAt, at_]
      split
      · next here => rw [here, found]; rfl
      · rfl
    · rw [KernelState.priority, KernelState.priority, at_]
      split
      · next here => rw [here, found]; rfl
      · rfl
  have next : (k.setPcb ptr { pcb with status := status }).next = k.next := by
    rw [next_setPcb, ← next_of_found found, Function.update_eq_self]
  exact tidy.of_alike alike (tidy.intact.of_same next rfl) fun _ _ => .inl

/-- A sleeper whose time is over is made running and queued. -/
theorem Tidy.turn_wakes (tidy : Tidy k lists) (listed : ptr ∈ k.allUnreapedPcbVector)
    (found : k.pcbs ptr = some pcb) (sleeps : pcb.status = .blocked ∧ pcb.sleepStamp ≠ 0)
    (finished : sleepOver k.globalClock pcb = true) :
    ∃ k', maintain ptr k = some (false, k') ∧ PassTurn k lists ptr pcb k' := by
  have woken := update_run (f := fun pcb => { pcb with status := .running }) found
  have found' : (k.setPcb ptr { pcb with status := .running }).pcbs ptr =
      some { pcb with status := .running } := Function.update_self _ _ _
  obtain ⟨k', run, same, tidy'⟩ := (tidy.setStatus found .running).push listed found'
  have stopped : ¬ pcb.status = .running := by simp [sleeps.1]
  have alive : ¬ pcb.status = .reaped := by simp [sleeps.1]
  have wakes : pcb.wake k.globalClock = { pcb with status := .running } := by
    rw [Pcb.wake, if_pos ⟨sleeps, finished⟩]
  refine ⟨k', ?_, ?_, same.clock, ?_, fun other apart => ?_, ?_⟩
  · rw [maintain, Prog.bind_of_run (deref_run found), Prog.get_bind]
    rw [if_neg stopped, if_pos sleeps, if_pos finished, Prog.bind_of_run woken, Prog.bind_of_run run]
    rfl
  · rw [turned, if_neg alive, wakes, if_pos rfl]
    exact tidy'
  · rw [if_neg alive, same.vector]
    rfl
  · refine (same.cores other).trans (congrArg (Option.map Pcb.core) ?_)
    exact Function.update_of_ne apart _ _
  · rw [if_neg alive, wakes]
    exact (same.cores ptr).trans (core_of_found found')

/-- A turn that does nothing. -/
theorem Tidy.turn_still (tidy : Tidy k lists) (found : k.pcbs ptr = some pcb)
    (stopped : ¬ pcb.status = .running) (alive : ¬ pcb.status = .reaped)
    (asleep : pcb.wake k.globalClock = pcb) :
    PassTurn k lists ptr pcb k := by
  refine ⟨?_, rfl, ?_, fun _ _ => rfl, ?_⟩
  · rw [turned, if_neg alive, asleep, if_neg stopped]
    exact tidy
  · rw [if_neg alive]
  · rw [if_neg alive, asleep]
    exact core_of_found found

theorem eraseP_eq_erase {p : PcbPtr → Bool} {list : List PcbPtr}
    (only : ∀ node ∈ list, p node = true ↔ node = ptr) : list.eraseP p = list.erase ptr := by
  induction list with
  | nil => rfl
  | cons first rest ih =>
      have tail := ih fun node member => only node (List.mem_cons_of_mem _ member)
      by_cases here : first = ptr
      · rw [List.eraseP_cons_of_pos ((only first List.mem_cons_self).mpr here), here,
          List.erase_cons_head]
      · have differs : ¬ p first = true := fun hit => here ((only first List.mem_cons_self).mp hit)
        rw [List.eraseP_cons_of_neg differs, List.erase_cons_tail (by simp [here]), tail]

/-- `pcb_vec_remove_by_pcb` and `pcb_destroy` of a PCB in no queue. -/
theorem Tidy.destroy (tidy : Tidy k lists) (out : ∀ level, ptr ∉ lists level) :
    Tidy (k.destroy ptr) lists := by
  have kept : ∀ node, node ≠ ptr → Function.update k.pcbs ptr none node = k.pcbs node :=
    fun node apart => Function.update_of_ne apart _ _
  have listed : ∀ node, node ∈ k.allUnreapedPcbVector.erase ptr →
      node ≠ ptr ∧ node ∈ k.allUnreapedPcbVector := fun node => tidy.distinct.mem_erase_iff.mp
  have queued : ∀ level, ∀ node ∈ lists level, node ≠ ptr :=
    fun level node member same => out level (same ▸ member)
  refine ⟨tidy.intact.of_same ?_ rfl, ?_, ?_, tidy.distinct.erase ptr, ?_, ?_⟩
  · funext node
    simp only [KernelState.next, KernelState.destroy]
    by_cases here : node = ptr
    · subst here
      simpa [KernelState.next] using (tidy.intact.loose node out).symm
    · rw [kept node here]
  · intro level node member
    obtain ⟨bound, pcb, found⟩ := tidy.queued level node member
    exact ⟨bound, pcb, (kept node (queued level node member)).trans found⟩
  · intro node member
    obtain ⟨apart, before⟩ := listed node member
    obtain ⟨bound, pcb, found⟩ := tidy.listed node before
    exact ⟨bound, pcb, (kept node apart).trans found⟩
  · intro node member other place same
    obtain ⟨apart, before⟩ := listed node member
    have apart' : other ≠ ptr := by
      rcases place with inVector | ⟨level, inQueue⟩
      · exact (listed other inVector).1
      · exact queued level other inQueue
    simp only [KernelState.pidAt, KernelState.destroy, kept node apart, kept other apart'] at same
    apply tidy.pids node before other _ same
    exact place.imp_left fun inVector => (listed other inVector).2
  · intro node member level inQueue
    obtain ⟨apart, before⟩ := listed node member
    have own := tidy.own node before level inQueue
    simp only [KernelState.priority, KernelState.destroy, kept node apart]
    exact own

/-- A reaped PCB leaves its queue and the vector and is freed. -/
theorem Tidy.turn_reaped (tidy : Tidy k lists) (listed : ptr ∈ k.allUnreapedPcbVector)
    (found : k.pcbs ptr = some pcb) (reaped : pcb.status = .reaped) :
    ∃ k', maintain ptr k = some (true, k') ∧ PassTurn k lists ptr pcb k' := by
  obtain ⟨k₁, run, moves⟩ := (tidy.represents pcb.priorityLevel).popByPid pcb.pid
  have only : ∀ node ∈ lists pcb.priorityLevel, k.hasPid pcb.pid node = true ↔ node = ptr := by
    intro node member
    obtain ⟨_, nodePcb, nodeFound⟩ := tidy.queued _ node member
    rw [hasPid_of_found nodeFound, decide_eq_true_iff]
    constructor
    · intro same
      apply (tidy.pids ptr listed node (.inr ⟨_, member⟩) _).symm
      rw [pidAt_of_found found, pidAt_of_found nodeFound, same]
    · rintro rfl
      rw [Option.some.inj (found.symm.trans nodeFound)]
  have elsewhere : ∀ level, level ≠ pcb.priorityLevel → ptr ∉ lists level := by
    intro level apart member
    have own := tidy.own ptr listed level member
    rw [priority_of_found found] at own
    exact apart (Option.some.inj own).symm
  have shorter : Function.update lists pcb.priorityLevel
      ((lists pcb.priorityLevel).eraseP (k.hasPid pcb.pid)) = fun level => (lists level).erase ptr := by
    funext level
    rw [eraseP_eq_erase only]
    by_cases here : level = pcb.priorityLevel
    · rw [here, Function.update_self]
    · rw [Function.update_of_ne here, List.erase_of_not_mem (elsewhere level here)]
  have intact := shorter ▸ pcbQueuePopByPid_intact tidy.intact run
  have tidy₁ : Tidy k₁ fun level => (lists level).erase ptr :=
    tidy.of_alike moves.same.alike intact fun level node member => .inl (List.mem_of_mem_erase member)
  have out : ∀ level, ptr ∉ (lists level).erase ptr := fun level =>
    (tidy.represents level).nodup.not_mem_erase
  have awake : ¬ (pcb.status = .blocked ∧ pcb.sleepStamp ≠ 0) := by simp [reaped]
  refine ⟨k₁.destroy ptr, ?_, ?_, moves.same.clock, ?_, fun other apart => ?_, ?_⟩
  · rw [maintain, Prog.bind_of_run (deref_run found), Prog.get_bind]
    rw [if_neg (by simp [reaped]), if_neg awake, if_pos reaped, Prog.bind_of_run run]
    rfl
  · rw [turned, if_pos reaped]
    exact tidy₁.destroy out
  · rw [if_pos reaped, ← moves.same.vector]
    rfl
  · refine Eq.trans ?_ (moves.same.cores other)
    exact congrArg (Option.map Pcb.core) (Function.update_of_ne apart _ _)
  · rw [if_pos reaped, KernelState.core]
    exact congrArg (Option.map Pcb.core) (Function.update_self ptr _ k₁.pcbs)

theorem Tidy.turn (tidy : Tidy k lists) (listed : ptr ∈ k.allUnreapedPcbVector)
    (found : k.pcbs ptr = some pcb) :
    ∃ k', maintain ptr k = some (decide (pcb.status = .reaped), k') ∧ PassTurn k lists ptr pcb k' := by
  by_cases reaped : pcb.status = .reaped
  · rw [decide_eq_true reaped]
    exact tidy.turn_reaped listed found reaped
  rw [decide_eq_false reaped]
  by_cases running : pcb.status = .running
  · exact tidy.turn_running listed found running
  by_cases sleeps : pcb.status = .blocked ∧ pcb.sleepStamp ≠ 0
  · by_cases finished : sleepOver k.globalClock pcb = true
    · exact tidy.turn_wakes listed found sleeps finished
    · refine ⟨k, ?_, tidy.turn_still found running reaped ?_⟩
      · rw [maintain, Prog.bind_of_run (deref_run found), Prog.get_bind]
        rw [if_neg running, if_pos sleeps, if_neg finished]
        rfl
      · rw [Pcb.wake, if_neg fun over_ => finished over_.2]
  · refine ⟨k, ?_, tidy.turn_still found running reaped (wake_of_not_sleeping sleeps)⟩
    rw [maintain, Prog.bind_of_run (deref_run found), Prog.get_bind]
    rw [if_neg running, if_neg sleeps, if_neg reaped]
    rfl

end Turns

/-- What the turns of the PCBs of `rest`, which stand behind `front` in the vector, do. -/
structure Maintained (k : KernelState) (lists : Level → List PcbPtr) (front rest : List PcbPtr)
    (k' : KernelState) (lists' : Level → List PcbPtr) : Prop where
  tidy : Tidy k' lists'
  vector : k'.allUnreapedPcbVector = front ++ rest.filter fun ptr => !k.isReaped ptr
  others : ∀ ptr, ptr ∉ rest → k'.core ptr = k.core ptr
  freed : ∀ ptr ∈ rest, k.isReaped ptr = true →
    k'.core ptr = none ∧ ∀ level, ptr ∉ lists' level
  woken : ∀ ptr ∈ rest, k.isReaped ptr = false →
    (k'.core ptr).map (·.status) = (k.core ptr).map fun pcb => (pcb.wake k.globalClock).status
  queued : ∀ ptr ∈ rest, ∀ pcb, k'.core ptr = some pcb → pcb.status = .running →
    ptr ∈ lists' pcb.priorityLevel
  order : ∀ level, ∃ new, lists' level =
      ((lists level).filter fun ptr => !(decide (ptr ∈ rest) && k.isReaped ptr)) ++ new ∧
    ∀ ptr ∈ new, ptr ∈ rest ∧ ptr ∉ lists level

section Pass

theorem wake_core (clock : UInt32) (pcb : Pcb) : (pcb.wake clock).core = pcb.core.wake clock := by
  rw [Pcb.wake, Pcb.wake]
  split
  · next sleeps => exact (if_pos sleeps).symm
  · next awake => exact (if_neg awake).symm

/-- A turn keeps the order of each queue and adds at most its PCB at the end. -/
theorem turned_order (tidy : Tidy k lists) (found : k.pcbs ptr = some pcb) (level : Level) :
    ∃ new, turned lists clock ptr pcb level =
        ((lists level).filter fun node => !(decide (node = ptr) && k.isReaped node)) ++ new ∧
      ∀ node ∈ new, node = ptr ∧ ptr ∉ lists level := by
  have reaped := isReaped_of_found found
  have kept : ¬ pcb.status = .reaped →
      ((lists level).filter fun node => !(decide (node = ptr) && k.isReaped node)) = lists level := by
    intro alive
    apply List.filter_eq_self.mpr
    intro node _
    by_cases here : node = ptr <;> simp [here, reaped, alive]
  rw [turned]
  by_cases gone : pcb.status = .reaped
  · refine ⟨[], ?_, nofun⟩
    rw [if_pos gone, (tidy.represents level).nodup.erase_eq_filter, List.append_nil]
    apply List.filter_congr
    intro node _
    by_cases here : node = ptr <;> simp [here, reaped, gone]
  rw [if_neg gone, kept gone]
  split
  · rw [pushed]
    split
    · exact ⟨[], by simp, nofun⟩
    · next fresh =>
        by_cases here : level = pcb.priorityLevel
        · subst here
          exact ⟨[ptr], by simp, by simp [fresh]⟩
        · exact ⟨[], by simp [Function.update_of_ne here], nofun⟩
  · exact ⟨[], by simp, nofun⟩

/-- The turn of a PCB and those of the rest. -/
theorem PassTurn.maintained {k₁ : KernelState} {front₁ : List PcbPtr} (tidy : Tidy k lists)
    (found : k.pcbs ptr = some pcb) (turn : PassTurn k lists ptr pcb k₁) (fresh : ptr ∉ rest)
    (fronts : front₁ = if pcb.status = .reaped then front else front ++ [ptr])
    (passed : Maintained k₁ (turned lists k.globalClock ptr pcb) front₁ rest k' lists') :
    Maintained k lists front (ptr :: rest) k' lists' := by
  have apart : ∀ node ∈ rest, node ≠ ptr := fun node member same => fresh (same ▸ member)
  have cores : ∀ node ∈ rest, k₁.core node = k.core node :=
    fun node member => turn.others node (apart node member)
  have states : ∀ node ∈ rest, k₁.isReaped node = k.isReaped node :=
    fun node member => isReaped_eq_of_core (cores node member)
  have last := (passed.others ptr fresh).trans turn.here
  have reaped := isReaped_of_found found
  refine ⟨passed.tidy, ?_, ?_, ?_, ?_, ?_, ?_⟩
  · have same : (rest.filter fun node => !k₁.isReaped node) = rest.filter fun node => !k.isReaped node := by
      apply List.filter_congr
      intro node member
      rw [states node member]
    rw [passed.vector, fronts, same, List.filter_cons, reaped]
    by_cases gone : pcb.status = .reaped <;> simp [gone]
  · intro node outside
    simp only [List.mem_cons, not_or] at outside
    exact (passed.others node outside.2).trans (turn.others node outside.1)
  · intro node member gone
    rcases List.mem_cons.mp member with rfl | later
    · rw [reaped, decide_eq_true_iff] at gone
      refine ⟨by rw [last, if_pos gone], fun level inside => ?_⟩
      obtain ⟨new, split, added⟩ := passed.order level
      rw [split, turned, if_pos gone] at inside
      rcases List.mem_append.mp inside with old | new_
      · exact (tidy.represents level).nodup.not_mem_erase (List.mem_filter.mp old).1
      · exact fresh (added node new_).1
    · exact passed.freed node later ((states node later).trans gone)
  · intro node member alive
    rcases List.mem_cons.mp member with rfl | later
    · rw [reaped, decide_eq_false_iff_not] at alive
      rw [last, if_neg alive, core_of_found found, wake_core]
      rfl
    · rw [passed.woken node later ((states node later).trans alive), turn.clock, cores node later]
  · intro node member nodePcb core running
    rcases List.mem_cons.mp member with rfl | later
    · rw [last] at core
      split at core
      · cases core
      next alive =>
        obtain rfl := Option.some.inj core
        have awake : (pcb.wake k.globalClock).status = .running := running
        have level : (pcb.wake k.globalClock).core.priorityLevel = pcb.priorityLevel := by
          rw [Pcb.wake]
          split <;> rfl
        obtain ⟨new, split, _⟩ := passed.order pcb.priorityLevel
        rw [level, split, turned, if_neg alive, if_pos awake]
        apply List.mem_append_left
        apply List.mem_filter.mpr
        refine ⟨?_, by simp [fresh]⟩
        rw [pushed]
        split
        · next there => exact there
        · rw [Function.update_self]
          exact List.mem_append_right _ (List.mem_singleton_self node)
    · exact passed.queued node later nodePcb core running
  · intro level
    obtain ⟨new, split, added⟩ := passed.order level
    obtain ⟨new₁, split₁, added₁⟩ := @turned_order k ptr pcb lists k.globalClock tidy found level
    have stays : (new₁.filter fun node => !(decide (node ∈ rest) && k₁.isReaped node)) = new₁ := by
      apply List.filter_eq_self.mpr
      intro node member
      simp [(added₁ node member).1, fresh]
    refine ⟨new₁ ++ new, ?_, ?_⟩
    · rw [split, split₁, List.filter_append, stays, List.filter_filter, ← List.append_assoc]
      congr 2
      apply List.filter_congr
      intro node _
      by_cases here : node = ptr
      · simp [here, fresh]
      · by_cases later : node ∈ rest
        · simp [here, later, states node later]
        · simp [here, later]
    · intro node member
      rcases List.mem_append.mp member with first | second
      · obtain ⟨rfl, out⟩ := added₁ node first
        exact ⟨List.mem_cons_self, out⟩
      · obtain ⟨later, out⟩ := added node second
        refine ⟨List.mem_cons_of_mem _ later, fun inside => out ?_⟩
        rw [split₁]
        apply List.mem_append_left
        exact List.mem_filter.mpr ⟨inside, by simp [apart node later]⟩

/-- By induction on the rest of the vector: the index stands at the first PCB not looked at, also
where the PCB before it was erased. -/
theorem Tidy.passes (tidy : Tidy k lists) (split : k.allUnreapedPcbVector = front ++ rest) :
    ∃ k' lists', maintenanceLoop rest.length front.length k = some ((), k') ∧
      Maintained k lists front rest k' lists' := by
  induction rest generalizing k lists front with
  | nil =>
      refine ⟨k, lists, rfl, tidy, ?_, fun _ _ => rfl, nofun, nofun, nofun, ?_⟩
      · rw [split]
        rfl
      · intro level
        refine ⟨[], ?_, nofun⟩
        rw [List.append_nil]
        exact (List.filter_eq_self.mpr fun node _ => by simp).symm
  | cons ptr rest ih =>
      have listed : ptr ∈ k.allUnreapedPcbVector := split ▸ List.mem_append_right _ List.mem_cons_self
      have distinct := split ▸ tidy.distinct
      have fresh : ptr ∉ rest := (List.nodup_cons.mp (List.nodup_append.mp distinct).2.1).1
      have before : ptr ∉ front := fun member =>
        (List.nodup_append.mp distinct).2.2 ptr member ptr List.mem_cons_self rfl
      have entry : k.allUnreapedPcbVector[front.length]? = some ptr := by
        rw [split, List.getElem?_append_right (Nat.le_refl _)]
        simp
      obtain ⟨_, pcb, found⟩ := tidy.listed ptr listed
      obtain ⟨k₁, run, turn⟩ := tidy.turn listed found
      have vector := turn.vector
      rw [split] at vector
      by_cases gone : pcb.status = .reaped
      · rw [if_pos gone, List.erase_append_right _ before, List.erase_cons_head] at vector
        obtain ⟨k', lists', later, passed⟩ := ih turn.tidy vector
        refine ⟨k', lists', ?_, turn.maintained tidy found fresh (if_pos gone).symm passed⟩
        rw [List.length_cons, maintenanceLoop, Prog.get_bind, entry]
        dsimp only
        rw [Prog.bind_of_run run, decide_eq_true gone, if_pos rfl, later]
      · rw [if_neg gone, List.append_cons] at vector
        obtain ⟨k', lists', later, passed⟩ := ih turn.tidy vector
        refine ⟨k', lists', ?_, turn.maintained tidy found fresh (if_neg gone).symm passed⟩
        rw [List.length_append, List.length_singleton] at later
        rw [List.length_cons, maintenanceLoop, Prog.get_bind, entry]
        dsimp only
        rw [Prog.bind_of_run run, decide_eq_false gone, if_neg Bool.false_ne_true, later]

end Pass

/-- The pass of the scheduler, from every state with sound queues. -/
theorem maintenance_tidies (tidy : Tidy k lists) :
    ∃ k' lists', maintenanceLoop k.allUnreapedPcbVector.length 0 k = some ((), k') ∧
      Tidy k' lists' ∧
      k'.allUnreapedPcbVector = (k.allUnreapedPcbVector.filter fun ptr => !k.isReaped ptr) ∧
      (∀ ptr ∈ k.allUnreapedPcbVector, k.isReaped ptr = true → ∀ level, ptr ∉ lists' level) ∧
      (∀ ptr ∈ k.allUnreapedPcbVector, ∀ pcb, k.pcbs ptr = some pcb → pcb.status = .blocked →
        pcb.sleepStamp ≠ 0 → pcb.sleepLength ≤ k.globalClock - pcb.sleepStamp →
          ∃ pcb', k'.pcbs ptr = some pcb' ∧ pcb'.status = .running) ∧
      (∀ ptr ∈ k'.allUnreapedPcbVector, ∀ pcb, k'.pcbs ptr = some pcb → pcb.status = .running →
        ∀ level, (lists' level).count ptr = if level = pcb.priorityLevel then 1 else 0) ∧
      ∀ level, ∃ new, lists' level = ((lists level).filter fun ptr =>
          !(decide (ptr ∈ k.allUnreapedPcbVector) && k.isReaped ptr)) ++ new ∧
        ∀ ptr ∈ new, ptr ∉ lists level := by
  obtain ⟨k', lists', run, passed⟩ := tidy.passes (List.nil_append _).symm
  refine ⟨k', lists', run, passed.tidy, passed.vector, ?_, ?_, ?_, ?_⟩
  · intro ptr listed reaped
    exact (passed.freed ptr listed reaped).2
  · intro ptr listed pcb found blocked stamped finished
    have alive : k.isReaped ptr = false := by simp [isReaped_of_found found, blocked]
    have woken := passed.woken ptr listed alive
    have sleeps : (pcb.status = .blocked ∧ pcb.sleepStamp ≠ 0) ∧
        sleepOver k.globalClock pcb = true := ⟨⟨blocked, stamped⟩, decide_eq_true finished⟩
    rw [core_of_found found, Option.map_some, ← wake_core, Pcb.wake, if_pos sleeps] at woken
    obtain ⟨core, isCore, running⟩ := Option.map_eq_some_iff.mp woken
    obtain ⟨pcb', found', rfl⟩ := Option.map_eq_some_iff.mp isCore
    exact ⟨pcb', found', running⟩
  · intro ptr listed pcb found running level
    have inside : ptr ∈ lists' pcb.priorityLevel := by
      have before : ptr ∈ k.allUnreapedPcbVector := by
        rw [passed.vector, List.nil_append] at listed
        exact (List.mem_filter.mp listed).1
      exact passed.queued ptr before pcb.core (core_of_found found) running
    by_cases here : level = pcb.priorityLevel
    · subst here
      rw [if_pos rfl]
      exact List.count_eq_one_of_mem (passed.tidy.represents _).nodup inside
    · rw [if_neg here]
      apply List.count_eq_zero_of_not_mem
      intro member
      exact here (passed.tidy.intact.forest.apart _ _ ptr member inside)
  · intro level
    obtain ⟨new, split, added⟩ := passed.order level
    exact ⟨new, split, fun ptr member => (added ptr member).2⟩

/-- Between quanta the queues of a run are as the pass needs them. -/
theorem Orderly.tidy (orderly : Orderly k lists) (idle : k.quantum = none) : Tidy k lists where
  intact := orderly.intact
  queued level ptr member := by
    obtain ⟨pcb, found⟩ := orderly.placed.allocated level ptr member
    exact ⟨orderly.table.bounded ptr pcb found, pcb, found⟩
  listed ptr listed := by
    obtain ⟨pcb, found⟩ := orderly.table.allocated ptr listed
    exact ⟨orderly.table.bounded ptr pcb found, pcb, found⟩
  distinct := orderly.table.distinct
  pids ptr listed other _ same := by
    obtain ⟨pcb, found⟩ := orderly.table.allocated ptr listed
    rw [pidAt_of_found found] at same
    obtain ⟨pcb', found', equal⟩ := Option.map_eq_some_iff.mp same.symm
    exact orderly.table.pids ptr other pcb pcb' found found' equal.symm
  own ptr listed level member := by
    obtain ⟨pcb, found⟩ := orderly.table.allocated ptr listed
    rw [priority_of_found found]
    rcases orderly.placed.level level ptr pcb member found with here | running
    · rw [here]
    · rw [idle] at running
      cases running

/-- The shell has terminated a process that is queued, and waited for it. -/
def reapedInQueue : KernelState := processStarted.after
  [.pick 0, .kill 1 3 pSigterm, .waitpid 1 3 false, .waitpidJoined 1 2, .waitpidReap 1 2, .quantumEnd]

theorem maintenance_tidies_reapedInQueue :
    ∃ k' lists', maintenanceLoop 3 0 reapedInQueue = some ((), k') ∧ Tidy k' lists' ∧
      k'.allUnreapedPcbVector = [0, 1] ∧ ∀ level, 2 ∉ lists' level := by
  have reached : Run NiceInPlace .boot reapedInQueue :=
    Run.of_runEvents (processStarted_run (by simp [startProcess, NiceInPlace]))
      (by simp [NiceInPlace]) (runEvents_after (by decide +kernel))
  obtain ⟨lists, orderly⟩ := run_orderly reached boot_orderly
  have known : reapedInQueue.quantum = none ∧ reapedInQueue.allUnreapedPcbVector = [0, 1, 2] ∧
      [0, 1, 2].filter (fun ptr => !reapedInQueue.isReaped ptr) = [0, 1] ∧
      reapedInQueue.isReaped 2 = true ∧ reapedInQueue.head 1 = some 2 := by
    decide +kernel
  obtain ⟨idle, vector, survivors, reaped, _⟩ := known
  obtain ⟨k', lists', run, tidy', left, freed, _⟩ := maintenance_tidies (orderly.tidy idle)
  rw [vector] at run left freed
  exact ⟨k', lists', run, tidy', left.trans survivors, freed 2 (by simp) reaped⟩

end PennOs.Kernel
