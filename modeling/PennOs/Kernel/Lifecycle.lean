import PennOs.Kernel.QueueFrames

set_option autoImplicit false

/- The order of a process's states. -/
namespace PennOs.Kernel

variable {k k' k'' : KernelState} {ptr : PcbPtr}

/-- A zombie can only become reaped, and a reaped process stays reaped. -/
def Follows (pcb pcb' : Pcb) : Prop :=
  (pcb.status = .zombie → pcb'.status = .zombie ∨ pcb'.status = .reaped) ∧
    (pcb.status = .reaped → pcb'.status = .reaped)

/-- The process is over. -/
def Pcb.over (pcb : Pcb) : Prop := pcb.status = .zombie ∨ pcb.status = .reaped

/-- PCBs that live on keep to the order, and new ones get new addresses. -/
structure Advances (k k' : KernelState) : Prop where
  nextPtr : k.nextPtr ≤ k'.nextPtr
  follows : ∀ ptr pcb', k'.pcbs ptr = some pcb' →
    k.nextPtr ≤ ptr ∨ ∃ pcb, k.pcbs ptr = some pcb ∧ Follows pcb pcb'

/-- Addresses in use are below the next one, and a process that is over has no thread left. -/
structure Settled (k : KernelState) : Prop where
  bounded : ∀ ptr pcb, k.pcbs ptr = some pcb → ptr < k.nextPtr
  ended : ∀ ptr pcb, k.pcbs ptr = some pcb → pcb.over → pcb.thrd = .ended

/-- What a step has to do for the order to hold. -/
def Lawful (k k' : KernelState) : Prop := Settled k → Settled k' ∧ Advances k k'

theorem Follows.of_status {pcb pcb' : Pcb} (same : pcb'.status = pcb.status) :
    Follows pcb pcb' := ⟨fun zombie => .inl (same.trans zombie), fun reaped => same.trans reaped⟩

theorem Follows.refl (pcb : Pcb) : Follows pcb pcb := Follows.of_status rfl

theorem Follows.trans {pcb pcb' pcb'' : Pcb} (first : Follows pcb pcb')
    (second : Follows pcb' pcb'') : Follows pcb pcb'' := by
  refine ⟨fun zombie => ?_, fun reaped => second.2 (first.2 reaped)⟩
  rcases first.1 zombie with still | reaped
  · exact second.1 still
  · exact .inr (second.2 reaped)

theorem Advances.refl (k : KernelState) : Advances k k :=
  ⟨Nat.le_refl _, fun _ pcb' found => .inr ⟨pcb', found, Follows.refl _⟩⟩

theorem Advances.trans (first : Advances k k') (second : Advances k' k'') : Advances k k'' where
  nextPtr := Nat.le_trans first.nextPtr second.nextPtr
  follows ptr pcb'' found := by
    rcases second.follows ptr pcb'' found with fresh | ⟨pcb', found', order'⟩
    · exact .inl (Nat.le_trans first.nextPtr fresh)
    · rcases first.follows ptr pcb' found' with fresh | ⟨pcb, before, order⟩
      · exact .inl fresh
      · exact .inr ⟨pcb, before, order.trans order'⟩

theorem Lawful.refl (k : KernelState) : Lawful k k := fun settled => ⟨settled, Advances.refl k⟩

theorem Lawful.trans (first : Lawful k k') (second : Lawful k' k'') : Lawful k k'' := by
  intro settled
  obtain ⟨settled', advances⟩ := first settled
  obtain ⟨settled'', advances'⟩ := second settled'
  exact ⟨settled'', advances.trans advances'⟩

/-- A change of one PCB. -/
theorem Lawful.setPcb {pcb pcb' : Pcb} (found : k.pcbs ptr = some pcb)
    (order : (pcb.over → pcb.thrd = .ended) → Follows pcb pcb')
    (ended : (pcb.over → pcb.thrd = .ended) → pcb'.over → pcb'.thrd = .ended) :
    Lawful k (k.setPcb ptr pcb') := by
  intro settled
  have known := settled.ended ptr pcb found
  refine ⟨⟨fun other pcb'' found' => ?_, fun other pcb'' found' => ?_⟩, Nat.le_refl _,
    fun other pcb'' found' => ?_⟩
  · rw [setPcb_pcbs] at found'
    split at found'
    · next here => exact here ▸ settled.bounded ptr pcb found
    · exact settled.bounded other pcb'' found'
  · rw [setPcb_pcbs] at found'
    split at found'
    · cases found'
      exact ended known
    · exact settled.ended other pcb'' found'
  · rw [setPcb_pcbs] at found'
    split at found'
    · next here =>
        cases found'
        exact .inr ⟨pcb, here ▸ found, order known⟩
    · exact .inr ⟨pcb'', found', Follows.refl _⟩

/-- Statuses and threads are left alone. -/
structure Tame (k k' : KernelState) : Prop where
  nextPtr : k'.nextPtr = k.nextPtr
  same : ∀ ptr pcb', k'.pcbs ptr = some pcb' →
    ∃ pcb, k.pcbs ptr = some pcb ∧ pcb'.status = pcb.status ∧ pcb'.thrd = pcb.thrd

theorem Tame.refl (k : KernelState) : Tame k k := ⟨rfl, fun _ pcb' found => ⟨pcb', found, rfl, rfl⟩⟩

theorem Tame.trans (first : Tame k k') (second : Tame k' k'') : Tame k k'' where
  nextPtr := second.nextPtr.trans first.nextPtr
  same ptr pcb'' found := by
    obtain ⟨pcb', found', status', thrd'⟩ := second.same ptr pcb'' found
    obtain ⟨pcb, before, status, thrd⟩ := first.same ptr pcb' found'
    exact ⟨pcb, before, status'.trans status, thrd'.trans thrd⟩

theorem Tame.update {f : Pcb → Pcb} (run : Kernel.update ptr f k = some ((), k'))
    (status : ∀ pcb, (f pcb).status = pcb.status) (thrd : ∀ pcb, (f pcb).thrd = pcb.thrd) :
    Tame k k' := by
  obtain ⟨pcb, found, rfl⟩ := update_inv run
  refine ⟨rfl, fun other pcb' found' => ?_⟩
  rw [setPcb_pcbs] at found'
  split at found'
  · next here =>
      cases found'
      exact ⟨pcb, here ▸ found, status pcb, thrd pcb⟩
  · exact ⟨pcb', found', rfl, rfl⟩

theorem Tame.of_sameButLinks (same : SameButLinks k k') : Tame k k' := by
  refine ⟨same.nextPtr, fun ptr pcb' found => ?_⟩
  obtain ⟨pcb, before, core⟩ := same.pcb found
  exact ⟨pcb, before, Pcb.core_status core, Pcb.core_thrd core⟩

theorem Lawful.of_tame (tame : Tame k k') : Lawful k k' := by
  intro settled
  refine ⟨⟨fun ptr pcb' found => ?_, fun ptr pcb' found finished => ?_⟩,
    tame.nextPtr ▸ Nat.le_refl _, fun ptr pcb' found => ?_⟩
  · obtain ⟨pcb, before, _⟩ := tame.same ptr pcb' found
    exact tame.nextPtr ▸ settled.bounded ptr pcb before
  · obtain ⟨pcb, before, status, thrd⟩ := tame.same ptr pcb' found
    rw [Pcb.over, status] at finished
    exact thrd.trans (settled.ended ptr pcb before finished)
  · obtain ⟨pcb, before, status, _⟩ := tame.same ptr pcb' found
    exact .inr ⟨pcb, before, Follows.of_status status⟩

/-- An update that leaves status and thread alone. -/
theorem Lawful.update {f : Pcb → Pcb} (run : Kernel.update ptr f k = some ((), k'))
    (status : ∀ pcb, (f pcb).status = pcb.status) (thrd : ∀ pcb, (f pcb).thrd = pcb.thrd) :
    Lawful k k' := Lawful.of_tame (Tame.update run status thrd)

/-- A process whose thread has not ended may get any status but the last two. -/
theorem Lawful.awaken {f : Pcb → Pcb} {pcb : Pcb}
    (run : Kernel.update ptr f k = some ((), k')) (found : k.pcbs ptr = some pcb)
    (awake : pcb.thrd ≠ .ended) (after : ¬ (f pcb).over) : Lawful k k' := by
  obtain ⟨pcb, found', rfl⟩ := update_inv run
  obtain rfl := Option.some.inj (found.symm.trans found')
  refine Lawful.setPcb found (fun known => ?_) (fun _ finished => absurd finished after)
  have before : ¬ pcb.over := fun finished => awake (known finished)
  simp only [Pcb.over, not_or] at before
  exact ⟨fun zombie => absurd zombie before.1, fun reaped => absurd reaped before.2⟩

/-- A process that is not over may get any status but the last two. -/
theorem Lawful.relabel {f : Pcb → Pcb} {pcb : Pcb}
    (run : Kernel.update ptr f k = some ((), k')) (found : k.pcbs ptr = some pcb)
    (before : ¬ pcb.over) (after : ¬ (f pcb).over) : Lawful k k' := by
  obtain ⟨pcb, found', rfl⟩ := update_inv run
  obtain rfl := Option.some.inj (found.symm.trans found')
  refine Lawful.setPcb found (fun _ => ?_) (fun _ finished => absurd finished after)
  simp only [Pcb.over, not_or] at before
  exact ⟨fun zombie => absurd zombie before.1, fun reaped => absurd reaped before.2⟩

theorem Lawful.of_pcbs (pcbs : k'.pcbs = k.pcbs) (nextPtr : k'.nextPtr = k.nextPtr) :
    Lawful k k' := by
  intro settled
  refine ⟨⟨?_, ?_⟩, nextPtr ▸ Nat.le_refl _, ?_⟩
  · rw [pcbs, nextPtr]
    exact settled.bounded
  · rw [pcbs]
    exact settled.ended
  · rw [pcbs]
    exact (Advances.refl k).follows

theorem setPending_lawful (k : KernelState) (pending : List Pending) :
    Lawful k (k.setPending pending) := Lawful.of_pcbs rfl rfl

theorem Lawful.of_sameButLinks (same : SameButLinks k k') : Lawful k k' :=
  Lawful.of_tame (Tame.of_sameButLinks same)

theorem Lawful.destroy (run : pcbDestroy ptr k = some ((), k')) : Lawful k k' := by
  intro settled
  simp only [pcbDestroy, Prog.modify_run, Option.some.injEq, Prod.mk.injEq, true_and] at run
  subst run
  have keeps : ∀ other pcb, Function.update k.pcbs ptr none other = some pcb →
      k.pcbs other = some pcb := by
    intro other pcb found
    rw [Function.update_apply] at found
    split at found
    · cases found
    · exact found
  exact ⟨⟨fun other pcb found => settled.bounded other pcb (keeps other pcb found),
    fun other pcb found => settled.ended other pcb (keeps other pcb found)⟩, Nat.le_refl _,
    fun other pcb found => .inr ⟨pcb, keeps other pcb found, Follows.refl _⟩⟩

theorem Lawful.allocate {pcb : Pcb} (alive : ¬ pcb.over) : Lawful k (k.allocate pcb) := by
  intro settled
  refine ⟨⟨fun other pcb' found => ?_, fun other pcb' found finished => ?_⟩, Nat.le_succ _,
    fun other pcb' found => ?_⟩
  · rw [allocate_pcbs] at found
    split at found
    · next here => exact here ▸ Nat.lt_succ_self _
    · exact Nat.lt_succ_of_lt (settled.bounded other pcb' found)
  · rw [allocate_pcbs] at found
    split at found
    · cases found
      exact absurd finished alive
    · exact settled.ended other pcb' found finished
  · rw [allocate_pcbs] at found
    split at found
    · next here => exact .inl (Nat.le_of_eq here.symm)
    · exact .inr ⟨pcb', found, Follows.refl _⟩

section Calls

theorem nextFreePidLoop_state {used : List Int} {fuel : Nat} {candidate pid : Int}
    (run : nextFreePidLoop used fuel candidate k = some (pid, k')) : k = k' := by
  induction fuel generalizing candidate with
  | zero => simp [nextFreePidLoop] at run
  | succ fuel ih =>
      by_cases taken : candidate ∈ used
      · simp only [nextFreePidLoop, taken, ↓reduceIte] at run
        exact ih run
      · simp only [nextFreePidLoop, taken, ↓reduceIte, Prog.pure_run, Option.some.injEq,
          Prod.mk.injEq] at run
        exact run.2

theorem pidsOf_state {ptrs : List PcbPtr} {pids : List Int}
    (run : pidsOf ptrs k = some (pids, k')) : k = k' := by
  induction ptrs generalizing pids k' with
  | nil =>
      simp only [pidsOf, Prog.pure_run, Option.some.injEq, Prod.mk.injEq] at run
      exact run.2
  | cons ptr rest ih =>
      obtain ⟨pcb, k1, read, run⟩ := Prog.bind_inv run
      obtain ⟨_, rfl⟩ := deref_inv read
      obtain ⟨tail, k2, tailRun, run⟩ := Prog.bind_inv run
      have state := ih tailRun
      subst state
      simp only [Prog.pure_run, Option.some.injEq, Prod.mk.injEq] at run
      exact run.2

theorem getNextFreePid_state {pid : Int} (run : getNextFreePid k = some (pid, k')) :
    k = k' := by
  simp only [getNextFreePid, Prog.get_bind] at run
  obtain ⟨used, k1, read, run⟩ := Prog.bind_inv run
  obtain rfl := pidsOf_state read
  exact nextFreePidLoop_state run

theorem pcbAddChildPid_lawful {parent : PcbPtr} {pid : Int}
    (run : pcbAddChildPid parent pid k = some ((), k')) : Lawful k k' := by
  obtain ⟨pcb, k1, read, run⟩ := Prog.bind_inv run
  obtain ⟨found, rfl⟩ := deref_inv read
  obtain ⟨_, k2, checked, run⟩ := Prog.bind_inv run
  obtain ⟨_, rfl⟩ := require_inv checked
  simp only [Prog.modify_run, Option.some.injEq, Prod.mk.injEq, true_and] at run
  subst run
  exact Lawful.setPcb found (fun _ => Follows.of_status rfl) fun known => known

theorem pcbInitEmpty_lawful {parent : PcbPtr} {priority : Level} {pid : Int}
    (run : pcbInitEmpty parent priority pid k = some (ptr, k')) : Lawful k k' := by
  obtain ⟨parentPcb, k1, read, run⟩ := Prog.bind_inv run
  obtain ⟨_, rfl⟩ := deref_inv read
  simp only [Prog.get_bind, Prog.modify_bind] at run
  obtain ⟨_, k2, added, run⟩ := Prog.bind_inv run
  simp only [Prog.pure_run, Option.some.injEq, Prod.mk.injEq] at run
  obtain ⟨_, rfl⟩ := run
  exact (Lawful.allocate (by simp [Pcb.over, emptyPcb])).trans (pcbAddChildPid_lawful added)

theorem pcbAddChildPid_other {parent : PcbPtr} {pid : Int} {pcb : Pcb}
    (run : pcbAddChildPid parent pid k = some ((), k')) (found : k.pcbs ptr = some pcb) :
    ∃ pcb', k'.pcbs ptr = some pcb' ∧ pcb'.thrd = pcb.thrd ∧ pcb'.status = pcb.status := by
  obtain ⟨parentPcb, k1, read, run⟩ := Prog.bind_inv run
  obtain ⟨found', rfl⟩ := deref_inv read
  obtain ⟨_, k2, checked, run⟩ := Prog.bind_inv run
  obtain ⟨_, rfl⟩ := require_inv checked
  simp only [Prog.modify_run, Option.some.injEq, Prod.mk.injEq, true_and] at run
  subst run
  rw [setPcb_pcbs]
  split
  · next here =>
      subst here
      obtain rfl := Option.some.inj (found.symm.trans found')
      exact ⟨_, rfl, rfl, rfl⟩
  · exact ⟨pcb, found, rfl, rfl⟩

/-- A PCB just made has no thread and is not over. -/
theorem pcbInitEmpty_fresh {parent : PcbPtr} {priority : Level} {pid : Int}
    (run : pcbInitEmpty parent priority pid k = some (ptr, k')) :
    ∃ pcb, k'.pcbs ptr = some pcb ∧ pcb.thrd = .absent ∧ pcb.status = .stopped := by
  obtain ⟨parentPcb, k1, read, run⟩ := Prog.bind_inv run
  obtain ⟨_, rfl⟩ := deref_inv read
  simp only [Prog.get_bind, Prog.modify_bind] at run
  obtain ⟨_, k2, added, run⟩ := Prog.bind_inv run
  simp only [Prog.pure_run, Option.some.injEq, Prod.mk.injEq] at run
  obtain ⟨rfl, rfl⟩ := run
  have found : (k.allocate (emptyPcb parentPcb.pid priority pid)).pcbs k.nextPtr
      = some (emptyPcb parentPcb.pid priority pid) := by simp [allocate_pcbs]
  exact pcbAddChildPid_other added found

theorem disconnectLoop_tame {pids : List Int} (run : disconnectLoop pids k = some ((), k')) :
    Tame k k' := by
  induction pids generalizing k with
  | nil =>
      simp only [disconnectLoop, Prog.pure_run, Option.some.injEq, Prod.mk.injEq,
        true_and] at run
      exact run ▸ Tame.refl _
  | cons pid rest ih =>
      obtain ⟨target, k1, searched, run⟩ := Prog.bind_inv run
      obtain ⟨rfl, _⟩ := pcbVecSeekPcbByPid_inv searched
      cases target with
      | none => exact ih run
      | some child =>
          obtain ⟨_, k2, changed, run⟩ := Prog.bind_inv run
          exact (Tame.update changed (fun _ => rfl) fun _ => rfl).trans (ih run)

theorem pcbDisconnectChild_tame (run : pcbDisconnectChild ptr k = some ((), k')) :
    Tame k k' := by
  obtain ⟨pcb, k1, read, run⟩ := Prog.bind_inv run
  obtain ⟨_, rfl⟩ := deref_inv read
  obtain ⟨_, k2, looped, run⟩ := Prog.bind_inv run
  exact (disconnectLoop_tame looped).trans (Tame.update run (fun _ => rfl) fun _ => rfl)

theorem pcbVecPushBack_lawful (run : pcbVecPushBack ptr k = some ((), k')) : Lawful k k' := by
  simp only [pcbVecPushBack, Prog.modify_run, Option.some.injEq, Prod.mk.injEq, true_and] at run
  exact run ▸ Lawful.of_pcbs rfl rfl

theorem pcbVecRemoveByPcb_lawful (run : pcbVecRemoveByPcb ptr k = some ((), k')) :
    Lawful k k' := by
  simp only [pcbVecRemoveByPcb, Prog.modify_run, Option.some.injEq, Prod.mk.injEq,
    true_and] at run
  exact run ▸ Lawful.of_pcbs rfl rfl

end Calls

/-- No `P_SIGTERM` goes to a process that has been reaped. -/
def NotRekilled (k : KernelState) : Event → Prop
  | .kill _ pid sig => sig = pSigterm → ∀ target k' pcb,
      pcbVecSeekPcbByPid pid k = some (some target, k') → k.pcbs target = some pcb →
      pcb.status ≠ .reaped
  | _ => True

/-- The PCB's thread runs. -/
def Live (k : KernelState) (ptr : PcbPtr) : Prop :=
  ∃ pcb, k.pcbs ptr = some pcb ∧ pcb.thrd = .live

theorem Live.of_sameButLinks (live : Live k ptr) (same : SameButLinks k k') : Live k' ptr := by
  obtain ⟨pcb, found, thrd⟩ := live
  have cores := same.cores ptr
  rw [found] at cores
  cases after : k'.pcbs ptr with
  | none => simp [after] at cores
  | some pcb' =>
      simp only [after, Option.map_some, Option.some.injEq] at cores
      exact ⟨pcb', after, (Pcb.core_thrd cores).trans thrd⟩

theorem Live.setPending (live : Live k ptr) (pending : List Pending) :
    Live (k.setPending pending) ptr := live

theorem Live.update {other : PcbPtr} {f : Pcb → Pcb} (live : Live k ptr)
    (run : Kernel.update other f k = some ((), k')) (keeps : other = ptr → ∀ pcb, (f pcb).thrd = pcb.thrd) :
    Live k' ptr := by
  obtain ⟨pcb, found, thrd⟩ := live
  obtain ⟨pcb', found', rfl⟩ := update_inv run
  rw [Live, setPcb_pcbs]
  split
  · next here =>
      subst here
      obtain rfl := Option.some.inj (found.symm.trans found')
      exact ⟨_, rfl, (keeps rfl pcb).trans thrd⟩
  · exact ⟨pcb, found, thrd⟩

theorem pcbInitEmpty_keeps_live {parent shell : PcbPtr} {priority : Level} {pid : Int}
    (settled : Settled k) (live : Live k ptr)
    (run : pcbInitEmpty parent priority pid k = some (shell, k')) : Live k' ptr ∧ shell ≠ ptr := by
  obtain ⟨pcb, found, thrd⟩ := live
  have below := settled.bounded ptr pcb found
  obtain ⟨parentPcb, k1, read, run⟩ := Prog.bind_inv run
  obtain ⟨_, rfl⟩ := deref_inv read
  simp only [Prog.get_bind, Prog.modify_bind] at run
  obtain ⟨_, k2, added, run⟩ := Prog.bind_inv run
  simp only [Prog.pure_run, Option.some.injEq, Prod.mk.injEq] at run
  obtain ⟨rfl, rfl⟩ := run
  have apart : ptr ≠ k.nextPtr := Nat.ne_of_lt below
  have kept : (k.allocate (emptyPcb parentPcb.pid priority pid)).pcbs ptr = some pcb := by
    simp [allocate_pcbs, apart, found]
  obtain ⟨pcb', found', thrd', _⟩ := pcbAddChildPid_other added kept
  exact ⟨⟨pcb', found', thrd'.trans thrd⟩, apart.symm⟩

/-- A running thread may give its own PCB any status but the last two. -/
theorem Lawful.ownStatus {f : Pcb → Pcb} (live : Live k ptr)
    (run : Kernel.update ptr f k = some ((), k')) (after : ∀ pcb, ¬ (f pcb).over) :
    Lawful k k' := by
  obtain ⟨pcb, found, thrd⟩ := live
  exact Lawful.awaken run found (by simp [thrd]) (after pcb)

section Events

theorem spawnShell_lawful {self : PcbPtr} (run : spawnShell self k = some ((), k')) :
    Lawful k k' := by
  intro settled
  obtain ⟨pcb, k1, called, run⟩ := Prog.bind_inv run
  obtain ⟨found, thrd, _, rfl⟩ := asCaller_inv called
  simp only [Prog.get_bind] at run
  obtain ⟨_, k2, checked, run⟩ := Prog.bind_inv run
  obtain ⟨_, rfl⟩ := require_inv checked
  rw [Prog.modify_bind] at run
  have marking : Lawful k k.setShellSpawned := Lawful.of_pcbs rfl rfl
  obtain ⟨shell, k3, made, run⟩ := Prog.bind_inv run
  obtain ⟨shellPcb, fresh, absent, stopped⟩ := pcbInitEmpty_fresh made
  obtain ⟨live, apart⟩ := pcbInitEmpty_keeps_live (marking settled).1 ⟨pcb, found, thrd⟩ made
  obtain ⟨_, k4, started, run⟩ := Prog.bind_inv run
  obtain ⟨_, k5, listed, run⟩ := Prog.bind_inv run
  obtain ⟨_, k6, queued, run⟩ := Prog.bind_inv run
  obtain ⟨_, k7, blocked, run⟩ := Prog.bind_inv run
  simp only [Prog.modify_run, Option.some.injEq, Prod.mk.injEq, true_and] at run
  have live4 : Live k4 self := live.update started fun same => absurd same apart
  have live5 : Live k5 self := by
    simp only [pcbVecPushBack, Prog.modify_run, Option.some.injEq, Prod.mk.injEq,
      true_and] at listed
    exact listed ▸ live4
  have live6 : Live k6 self := live5.of_sameButLinks (pcbQueuePush_frame queued)
  have starting : Lawful k3 k4 := Lawful.awaken started fresh (by simp [absent]) (by simp [Pcb.over])
  have blocking : Lawful k6 k7 := Lawful.ownStatus live6 blocked (by simp [Pcb.over])
  have ending : Lawful k7 k' := run ▸ setPending_lawful _ _
  exact (marking.trans <| (pcbInitEmpty_lawful made).trans <| starting.trans <|
    (pcbVecPushBack_lawful listed).trans <|
    (Lawful.of_sameButLinks (pcbQueuePush_frame queued)).trans <|
    blocking.trans ending) settled

theorem shellReturned_lawful {self : PcbPtr} (run : shellReturned self k = some ((), k')) :
    Lawful k k' := by
  obtain ⟨pcb, k1, called, run⟩ := Prog.bind_inv run
  obtain ⟨_, _, _, rfl⟩ := asCaller_inv called
  obtain ⟨_, k2, checked, run⟩ := Prog.bind_inv run
  obtain ⟨_, rfl⟩ := require_inv checked
  obtain ⟨pcb', found, rfl⟩ := update_inv run
  exact Lawful.setPcb found (fun _ => Follows.of_status rfl) fun _ _ => rfl

theorem initResumed_lawful {self shell : PcbPtr}
    (run : initResumed self shell k = some ((), k')) : Lawful k k' := by
  obtain ⟨pcb, k1, called, run⟩ := Prog.bind_inv run
  obtain ⟨found, thrd, _, rfl⟩ := asCaller_inv called
  simp only [Prog.get_bind] at run
  obtain ⟨shellPcb, k2, read, run⟩ := Prog.bind_inv run
  obtain ⟨_, rfl⟩ := deref_inv read
  obtain ⟨_, k3, checked, run⟩ := Prog.bind_inv run
  obtain ⟨_, rfl⟩ := require_inv checked
  rw [Prog.modify_bind] at run
  have live : Live k self := ⟨pcb, found, thrd⟩
  exact (setPending_lawful _ _).trans
    (Lawful.ownStatus (live.setPending _) run (by simp [Pcb.over]))

theorem kProcCreate_lawful {self : PcbPtr} {priority : Level}
    (run : kProcCreate self priority k = some (ptr, k')) : Lawful k k' := by
  obtain ⟨pcb, k1, called, run⟩ := Prog.bind_inv run
  obtain ⟨_, _, _, rfl⟩ := asCaller_inv called
  obtain ⟨pid, k2, chosen, run⟩ := Prog.bind_inv run
  obtain rfl := getNextFreePid_state chosen
  obtain ⟨new, k3, made, run⟩ := Prog.bind_inv run
  obtain ⟨_, k4, listed, run⟩ := Prog.bind_inv run
  simp only [Prog.pure_run, Option.some.injEq, Prod.mk.injEq] at run
  obtain ⟨rfl, rfl⟩ := run
  exact (pcbInitEmpty_lawful made).trans (pcbVecPushBack_lawful listed)

theorem setRoutineAndRun_lawful {self proc : PcbPtr}
    (run : setRoutineAndRun self proc k = some ((), k')) : Lawful k k' := by
  obtain ⟨pcb, k1, called, run⟩ := Prog.bind_inv run
  obtain ⟨_, _, _, rfl⟩ := asCaller_inv called
  obtain ⟨procPcb, k2, read, run⟩ := Prog.bind_inv run
  obtain ⟨found, rfl⟩ := deref_inv read
  obtain ⟨_, k3, checked, run⟩ := Prog.bind_inv run
  obtain ⟨absent, rfl⟩ := require_inv checked
  obtain ⟨_, k4, started, run⟩ := Prog.bind_inv run
  obtain ⟨procPcb', k5, read', run⟩ := Prog.bind_inv run
  obtain ⟨_, rfl⟩ := deref_inv read'
  exact (Lawful.awaken started found (by simp [absent]) (by simp [Pcb.over])).trans
    (Lawful.of_sameButLinks (pcbQueuePush_frame run))

theorem kKill_lawful {self : PcbPtr} {pid sig : Int}
    (sound : NotRekilled k (.kill self pid sig)) (run : kKill self pid sig k = some ((), k')) :
    Lawful k k' := by
  obtain ⟨pcb, k1, called, run⟩ := Prog.bind_inv run
  obtain ⟨_, _, _, rfl⟩ := asCaller_inv called
  obtain ⟨found, k2, searched, run⟩ := Prog.bind_inv run
  have search := searched
  obtain ⟨rfl, _⟩ := pcbVecSeekPcbByPid_inv searched
  cases found with
  | none =>
      simp only [Prog.pure_run, Option.some.injEq, Prod.mk.injEq, true_and] at run
      exact run ▸ Lawful.refl _
  | some target =>
      simp only at run
      obtain ⟨targetPcb, k3, read, run⟩ := Prog.bind_inv run
      obtain ⟨found, rfl⟩ := deref_inv read
      by_cases stop : sig = pSigstop
      · simp only [stop, ↓reduceIte] at run
        by_cases running : targetPcb.status = .running
        · simp only [running, ↓reduceIte] at run
          obtain ⟨_, k4, checked, run⟩ := Prog.bind_inv run
          obtain ⟨_, rfl⟩ := require_inv checked
          by_cases own : target = self
          · simp only [own, ↓reduceIte, Prog.modify_run, Option.some.injEq, Prod.mk.injEq,
              true_and] at run
            exact run ▸ Lawful.of_pcbs rfl rfl
          · simp only [own, ↓reduceIte] at run
            exact Lawful.relabel run found (by simp [Pcb.over, running]) (by simp [Pcb.over])
        · simp only [running, ↓reduceIte, Prog.pure_run, Option.some.injEq, Prod.mk.injEq,
            true_and] at run
          exact run ▸ Lawful.refl _
      · simp only [stop, ↓reduceIte] at run
        by_cases cont : sig = pSigcont
        · simp only [cont, ↓reduceIte] at run
          by_cases stopped : targetPcb.status = .stopped
          · simp only [stopped, ↓reduceIte] at run
            exact Lawful.relabel run found (by simp [Pcb.over, stopped]) (by simp [Pcb.over])
          · simp only [stopped, ↓reduceIte, Prog.pure_run, Option.some.injEq, Prod.mk.injEq,
              true_and] at run
            exact run ▸ Lawful.refl _
        · simp only [cont, ↓reduceIte] at run
          by_cases term : sig = pSigterm
          · have unreaped := sound term target k targetPcb search found
            simp only [term, ↓reduceIte] at run
            by_cases zombie : targetPcb.status = .zombie
            · simp only [zombie, ne_eq, not_true_eq_false, ↓reduceIte, Prog.pure_run,
                Option.some.injEq, Prod.mk.injEq, true_and] at run
              exact run ▸ Lawful.refl _
            · simp only [zombie, ne_eq, not_false_eq_true, ↓reduceIte] at run
              obtain ⟨_, k4, checked, run⟩ := Prog.bind_inv run
              obtain ⟨_, rfl⟩ := require_inv checked
              obtain ⟨_, k5, cancelled, run⟩ := Prog.bind_inv run
              obtain ⟨pcb', found', rfl⟩ := update_inv cancelled
              obtain rfl := Option.some.inj (found.symm.trans found')
              have cancelling : Lawful k (k.setPcb target { targetPcb with thrd := .ended }) :=
                Lawful.setPcb found (fun _ => Follows.of_status rfl) fun _ _ => rfl
              refine cancelling.trans ?_
              by_cases own : target = self
              · simp only [own, not_true_eq_false, ↓reduceIte, Prog.pure_run, Option.some.injEq,
                  Prod.mk.injEq, true_and] at run
                exact run ▸ own ▸ Lawful.refl _
              · simp only [own, not_false_eq_true, ↓reduceIte] at run
                obtain ⟨_, k6, killed, run⟩ := Prog.bind_inv run
                refine Lawful.trans ?_ (Lawful.of_tame (pcbDisconnectChild_tame run))
                obtain ⟨pcb'', found'', rfl⟩ := update_inv killed
                have same : { targetPcb with thrd := .ended } = pcb'' := by
                  simpa [setPcb_pcbs] using found''
                subst same
                exact Lawful.setPcb found''
                  (fun _ => ⟨fun finished => absurd finished zombie, fun finished =>
                  absurd finished unreaped⟩)
                  fun _ _ => rfl
          · simp only [term, ↓reduceIte, Prog.pure_run, Option.some.injEq, Prod.mk.injEq,
              true_and] at run
            exact run ▸ Lawful.refl _

theorem selfStopResumed_lawful {self : PcbPtr} (run : selfStopResumed self k = some ((), k')) :
    Lawful k k' := by
  obtain ⟨pcb, k1, called, run⟩ := Prog.bind_inv run
  obtain ⟨found, thrd, _, rfl⟩ := asCaller_inv called
  simp only [Prog.get_bind] at run
  obtain ⟨_, k2, checked, run⟩ := Prog.bind_inv run
  obtain ⟨_, rfl⟩ := require_inv checked
  rw [Prog.modify_bind] at run
  have live : Live k self := ⟨pcb, found, thrd⟩
  exact (setPending_lawful _ _).trans
    (Lawful.ownStatus (live.setPending _) run (by simp [Pcb.over]))

/-- In between, the caller of `k_exit` is a zombie whose thread still runs. -/
theorem kExit_lawful {self : PcbPtr} (run : kExit self k = some ((), k')) : Lawful k k' := by
  intro settled
  obtain ⟨pcb, k1, called, run⟩ := Prog.bind_inv run
  obtain ⟨found, thrd, _, rfl⟩ := asCaller_inv called
  obtain ⟨_, k2, exited, run⟩ := Prog.bind_inv run
  obtain ⟨_, k3, disconnected, ending⟩ := Prog.bind_inv run
  obtain ⟨pcb3, found3, rfl⟩ := update_inv ending
  have tame := pcbDisconnectChild_tame disconnected
  obtain ⟨pcb2, found2, rfl⟩ := update_inv exited
  obtain rfl := Option.some.inj (found.symm.trans found2)
  have alive : ¬ pcb.over := fun finished => by
    have ended := settled.ended self pcb found finished
    rw [thrd] at ended
    cases ended
  -- every other PCB is as before up to tame changes
  have others : ∀ other pcb', other ≠ self → k3.pcbs other = some pcb' →
      ∃ before, k.pcbs other = some before ∧ pcb'.status = before.status ∧
        pcb'.thrd = before.thrd := by
    intro other pcb' apart found'
    obtain ⟨before, known, same⟩ := tame.same other pcb' found'
    rw [setPcb_pcbs, if_neg apart] at known
    exact ⟨before, known, same⟩
  have nextPtr : k3.nextPtr = k.nextPtr := tame.nextPtr
  refine ⟨⟨fun other pcb' found' => ?_, fun other pcb' found' finished => ?_⟩,
    Nat.le_of_eq nextPtr.symm, fun other pcb' found' => ?_⟩
  · rw [setPcb_pcbs] at found'
    change other < k3.nextPtr
    rw [nextPtr]
    split at found'
    · next here => exact here ▸ settled.bounded self pcb found
    · next apart =>
        obtain ⟨before, known, _⟩ := others other pcb' apart found'
        exact settled.bounded other before known
  · rw [setPcb_pcbs] at found'
    split at found'
    · cases found'
      rfl
    · next apart =>
        obtain ⟨before, known, status, thrd'⟩ := others other pcb' apart found'
        rw [Pcb.over, status] at finished
        exact thrd'.trans (settled.ended other before known finished)
  · rw [setPcb_pcbs] at found'
    split at found'
    · next here =>
        simp only [Pcb.over, not_or] at alive
        exact .inr ⟨pcb, here ▸ found, fun zombie => absurd zombie alive.1,
          fun reaped => absurd reaped alive.2⟩
    · next apart =>
        obtain ⟨before, known, status, _⟩ := others other pcb' apart found'
        exact .inr ⟨before, known, Follows.of_status status⟩

theorem kSleep_lawful {self : PcbPtr} {length : UInt32}
    (run : kSleep self length k = some ((), k')) : Lawful k k' := by
  obtain ⟨pcb, k1, called, run⟩ := Prog.bind_inv run
  obtain ⟨found, thrd, _, rfl⟩ := asCaller_inv called
  simp only [Prog.get_bind] at run
  obtain ⟨_, k2, slept, run⟩ := Prog.bind_inv run
  simp only [Prog.modify_run, Option.some.injEq, Prod.mk.injEq, true_and] at run
  exact (Lawful.ownStatus ⟨pcb, found, thrd⟩ slept (by simp [Pcb.over])).trans
    (run ▸ setPending_lawful _ _)

theorem kSleepResumed_lawful {self : PcbPtr} (run : kSleepResumed self k = some ((), k')) :
    Lawful k k' := by
  obtain ⟨pcb, k1, called, run⟩ := Prog.bind_inv run
  obtain ⟨_, _, _, rfl⟩ := asCaller_inv called
  simp only [Prog.get_bind] at run
  obtain ⟨_, k2, checked, run⟩ := Prog.bind_inv run
  obtain ⟨_, rfl⟩ := require_inv checked
  rw [Prog.modify_bind] at run
  exact (setPending_lawful _ _).trans (Lawful.update run (fun _ => rfl) fun _ => rfl)

theorem seekChild_state {ppid pid : Int} {ptrs : List PcbPtr} {result : Option PcbPtr}
    (run : seekChild ppid pid ptrs k = some (result, k')) : k = k' := by
  induction ptrs with
  | nil =>
      simp only [seekChild, Prog.pure_run, Option.some.injEq, Prod.mk.injEq] at run
      exact run.2
  | cons ptr rest ih =>
      obtain ⟨pcb, k1, read, run⟩ := Prog.bind_inv run
      obtain ⟨_, rfl⟩ := deref_inv read
      by_cases here : pcb.ppid = ppid ∧ pcb.pid = pid
      · simp only [here, and_self, ↓reduceIte, Prog.pure_run, Option.some.injEq,
          Prod.mk.injEq] at run
        exact run.2
      · simp only [here, ↓reduceIte] at run
        exact ih run

theorem kWaitpid_lawful {self : PcbPtr} {pid : Int} {nohang : Bool} {result : Option Int}
    (run : kWaitpid self pid nohang k = some (result, k')) : Lawful k k' := by
  obtain ⟨_, k1, checked, run⟩ := Prog.bind_inv run
  obtain ⟨_, rfl⟩ := require_inv checked
  obtain ⟨pcb, k2, called, run⟩ := Prog.bind_inv run
  obtain ⟨found, thrd, _, rfl⟩ := asCaller_inv called
  simp only [Prog.get_bind] at run
  obtain ⟨child, k3, searched, run⟩ := Prog.bind_inv run
  obtain rfl := seekChild_state searched
  cases child with
  | none =>
      simp only [Prog.modify_bind, Prog.pure_run, Option.some.injEq, Prod.mk.injEq] at run
      exact run.2 ▸ Lawful.of_pcbs rfl rfl
  | some child =>
      obtain ⟨childPcb, k4, read, run⟩ := Prog.bind_inv run
      obtain ⟨_, rfl⟩ := deref_inv read
      by_cases early : childPcb.status ≠ .zombie ∧ nohang = true
      · simp only [early, ↓reduceIte, Prog.pure_run, Option.some.injEq, Prod.mk.injEq, ne_eq,
          not_false_eq_true, and_self] at run
        exact run.2 ▸ Lawful.refl _
      · simp only [early, ↓reduceIte] at run
        obtain ⟨_, k5, blocked, run⟩ := Prog.bind_inv run
        rw [Prog.modify_bind] at run
        simp only [Prog.pure_run, Option.some.injEq, Prod.mk.injEq] at run
        exact (Lawful.ownStatus ⟨pcb, found, thrd⟩ blocked (by simp [Pcb.over])).trans
          (run.2 ▸ setPending_lawful _ _)

theorem kWaitpidJoined_lawful {self child : PcbPtr}
    (run : kWaitpidJoined self child k = some ((), k')) : Lawful k k' := by
  obtain ⟨pcb, k1, called, run⟩ := Prog.bind_inv run
  obtain ⟨found, thrd, _, rfl⟩ := asCaller_inv called
  simp only [Prog.get_bind] at run
  obtain ⟨childPcb, k2, read, run⟩ := Prog.bind_inv run
  obtain ⟨_, rfl⟩ := deref_inv read
  obtain ⟨_, k3, checked, run⟩ := Prog.bind_inv run
  obtain ⟨_, rfl⟩ := require_inv checked
  rw [Prog.modify_bind] at run
  have live : Live k self := ⟨pcb, found, thrd⟩
  exact (setPending_lawful _ _).trans
    (Lawful.ownStatus (live.setPending _) run (by simp [Pcb.over]))

/-- `k_waitpid` reaps zombies only. -/
theorem kWaitpidReap_lawful {self child : PcbPtr} {result : Int}
    (run : kWaitpidReap self child k = some (result, k')) : Lawful k k' := by
  obtain ⟨pcb, k1, called, run⟩ := Prog.bind_inv run
  obtain ⟨_, _, _, rfl⟩ := asCaller_inv called
  simp only [Prog.get_bind] at run
  obtain ⟨_, k2, checked, run⟩ := Prog.bind_inv run
  obtain ⟨_, rfl⟩ := require_inv checked
  rw [Prog.modify_bind] at run
  refine (setPending_lawful k (k.pending.erase (.reap self child))).trans ?_
  obtain ⟨childPcb, k3, read, run⟩ := Prog.bind_inv run
  obtain ⟨found, rfl⟩ := deref_inv read
  obtain ⟨_, k4, zombieCheck, run⟩ := Prog.bind_inv run
  obtain ⟨zombie, rfl⟩ := require_inv zombieCheck
  obtain ⟨_, k5, reaped, run⟩ := Prog.bind_inv run
  simp only [Prog.pure_run, Option.some.injEq, Prod.mk.injEq] at run
  obtain ⟨_, rfl⟩ := run
  obtain ⟨pcb', found', rfl⟩ := update_inv reaped
  obtain rfl := Option.some.inj (found.symm.trans found')
  exact Lawful.setPcb found (fun _ => ⟨fun _ => .inr rfl, fun _ => rfl⟩)
    fun known _ => known (.inl zombie)

theorem kNice_lawful {self : PcbPtr} {pid newPriority result : Int}
    (run : kNice self pid newPriority k = some (result, k')) : Lawful k k' := by
  obtain ⟨pcb, k1, called, run⟩ := Prog.bind_inv run
  obtain ⟨_, _, _, rfl⟩ := asCaller_inv called
  by_cases valid : 0 ≤ newPriority ∧ newPriority < 3
  · simp only [valid, and_self, ↓reduceDIte] at run
    obtain ⟨found, k2, searched, run⟩ := Prog.bind_inv run
    obtain ⟨rfl, _⟩ := pcbVecSeekPcbByPid_inv searched
    cases found with
    | none =>
        simp only [Prog.pure_run, Option.some.injEq, Prod.mk.injEq] at run
        exact run.2 ▸ Lawful.refl _
    | some target =>
        obtain ⟨_, k3, changed, run⟩ := Prog.bind_inv run
        simp only [Prog.pure_run, Option.some.injEq, Prod.mk.injEq] at run
        exact run.2 ▸ Lawful.update changed (fun _ => rfl) fun _ => rfl
  · simp only [valid, ↓reduceDIte, Prog.pure_run, Option.some.injEq, Prod.mk.injEq] at run
    exact run.2 ▸ Lawful.refl _

/-- Waking a sleeper changes a blocked process only. -/
theorem wake_lawful {curr : PcbPtr} {pcb : Pcb} (level : Level) (found : k.pcbs curr = some pcb)
    (blocked : pcb.status = .blocked)
    (run : (do
      update curr fun pcb => { pcb with status := .running }
      pcbQueuePush level curr : KernelM Unit) k = some ((), k')) : Lawful k k' := by
  obtain ⟨_, k1, woken, run⟩ := Prog.bind_inv run
  exact (Lawful.relabel woken found (by simp [Pcb.over, blocked]) (by simp [Pcb.over])).trans
    (Lawful.of_sameButLinks (pcbQueuePush_frame run))

theorem maintain_lawful {curr : PcbPtr} {gone : Bool}
    (run : maintain curr k = some (gone, k')) : Lawful k k' := by
  obtain ⟨pcb, k1, read, run⟩ := Prog.bind_inv run
  obtain ⟨found, rfl⟩ := deref_inv read
  simp only [Prog.get_bind] at run
  by_cases running : pcb.status = .running
  · simp only [running, ↓reduceIte] at run
    obtain ⟨queued, k2, searched, run⟩ := Prog.bind_inv run
    obtain rfl := pcbInQueue_state searched
    cases queued with
    | true =>
        simp only [Bool.not_true, Bool.false_eq_true, ↓reduceIte, Prog.pure_run,
          Option.some.injEq, Prod.mk.injEq] at run
        exact run.2 ▸ Lawful.refl _
    | false =>
        simp only [Bool.not_false, ↓reduceIte] at run
        obtain ⟨_, k3, pushed, run⟩ := Prog.bind_inv run
        simp only [Prog.pure_run, Option.some.injEq, Prod.mk.injEq] at run
        exact run.2 ▸ Lawful.of_sameButLinks (pcbQueuePush_frame pushed)
  · simp only [running, ↓reduceIte] at run
    by_cases asleep : pcb.status = .blocked ∧ pcb.sleepStamp ≠ 0
    · simp only [asleep, ne_eq, not_false_eq_true, and_self, ↓reduceIte] at run
      by_cases finished : sleepOver k.globalClock pcb = true
      · simp only [finished, ↓reduceIte] at run
        obtain ⟨_, k2, woken, run⟩ := Prog.bind_inv run
        obtain ⟨_, k3, pushed, run⟩ := Prog.bind_inv run
        simp only [Prog.pure_run, Option.some.injEq, Prod.mk.injEq] at run
        refine run.2 ▸ wake_lawful pcb.priorityLevel found asleep.1 ?_
        rw [Prog.bind_of_run woken]
        exact pushed
      · simp only [finished, Bool.false_eq_true, ↓reduceIte, Prog.pure_run, Option.some.injEq,
          Prod.mk.injEq] at run
        exact run.2 ▸ Lawful.refl _
    · simp only [asleep, ↓reduceIte] at run
      by_cases reaped : pcb.status = .reaped
      · simp only [reaped, ↓reduceIte] at run
        obtain ⟨_, k2, popped, run⟩ := Prog.bind_inv run
        obtain ⟨_, k3, removed, run⟩ := Prog.bind_inv run
        obtain ⟨_, k4, destroyed, run⟩ := Prog.bind_inv run
        simp only [Prog.pure_run, Option.some.injEq, Prod.mk.injEq] at run
        exact run.2 ▸ (Lawful.of_sameButLinks (pcbQueuePopByPid_frame popped)).trans
          ((pcbVecRemoveByPcb_lawful removed).trans (Lawful.destroy destroyed))
      · simp only [reaped, ↓reduceIte, Prog.pure_run, Option.some.injEq, Prod.mk.injEq] at run
        exact run.2 ▸ Lawful.refl _

theorem maintenanceLoop_lawful {count i : Nat}
    (run : maintenanceLoop count i k = some ((), k')) : Lawful k k' := by
  induction count generalizing i k with
  | zero =>
      simp only [maintenanceLoop, Prog.pure_run, Option.some.injEq, Prod.mk.injEq,
        true_and] at run
      exact run ▸ Lawful.refl _
  | succ count ih =>
      simp only [maintenanceLoop, Prog.get_bind] at run
      cases entry : k.allUnreapedPcbVector[i]? with
      | none => simp [entry] at run
      | some curr =>
          simp only [entry] at run
          obtain ⟨gone, k1, kept, run⟩ := Prog.bind_inv run
          refine (maintain_lawful kept).trans ?_
          cases gone with
          | true => exact ih run
          | false => exact ih run

theorem maintenancePass_lawful (run : maintenancePass k = some ((), k')) : Lawful k k' := by
  simp only [maintenancePass, Prog.get_bind] at run
  obtain ⟨_, k1, checked, run⟩ := Prog.bind_inv run
  obtain ⟨_, rfl⟩ := require_inv checked
  exact maintenanceLoop_lawful run

theorem pick_lawful {level : Level} (run : pick level k = some ((), k')) : Lawful k k' := by
  simp only [pick, Prog.get_bind] at run
  obtain ⟨_, k1, checked, run⟩ := Prog.bind_inv run
  obtain ⟨_, rfl⟩ := require_inv checked
  obtain ⟨found, k2, picked, run⟩ := Prog.bind_inv run
  refine (Lawful.of_sameButLinks (pickLoop_frame picked)).trans ?_
  cases found with
  | none =>
      simp only [Prog.pure_run, Option.some.injEq, Prod.mk.injEq, true_and] at run
      exact run ▸ Lawful.refl _
  | some curr =>
      obtain ⟨pcb, k3, read, run⟩ := Prog.bind_inv run
      obtain ⟨_, rfl⟩ := deref_inv read
      obtain ⟨_, k4, started, run⟩ := Prog.bind_inv run
      obtain ⟨_, rfl⟩ := require_inv started
      simp only [Prog.modify_run, Option.some.injEq, Prod.mk.injEq, true_and] at run
      exact run ▸ Lawful.of_pcbs rfl rfl

theorem idleTick_lawful (run : idleTick k = some ((), k')) : Lawful k k' := by
  simp only [idleTick, Prog.get_bind] at run
  obtain ⟨_, k1, checked, run⟩ := Prog.bind_inv run
  obtain ⟨_, rfl⟩ := require_inv checked
  simp only [Prog.modify_run, Option.some.injEq, Prod.mk.injEq, true_and] at run
  exact run ▸ Lawful.of_pcbs rfl rfl

theorem quantumEnd_lawful (run : quantumEnd k = some ((), k')) : Lawful k k' := by
  simp only [quantumEnd, Prog.get_bind] at run
  cases quantum : k.quantum with
  | none => simp [quantum] at run
  | some slot =>
      simp only [quantum, Prog.modify_bind] at run
      have stopped : Lawful k (k.setQuantum none) := Lawful.of_pcbs rfl rfl
      refine stopped.trans ?_
      obtain ⟨popped, k1, pop, run⟩ := Prog.bind_inv run
      refine (Lawful.of_sameButLinks (pcbQueuePop_frame pop)).trans ?_
      cases popped with
      | none =>
          simp only [Prog.pure_run, Option.some.injEq, Prod.mk.injEq, true_and] at run
          exact run ▸ Lawful.refl _
      | some _ =>
          obtain ⟨pcb, k2, read, run⟩ := Prog.bind_inv run
          obtain ⟨found, rfl⟩ := deref_inv read
          by_cases running : pcb.status = .running
          · simp only [running, ↓reduceIte] at run
            exact Lawful.of_sameButLinks (pcbQueuePush_frame run)
          · simp only [running, ↓reduceIte] at run
            by_cases asleep : pcb.status = .blocked ∧ pcb.sleepStamp ≠ 0
            · simp only [asleep, ne_eq, not_false_eq_true, and_self, ↓reduceIte] at run
              by_cases finished : sleepOver k.globalClock pcb = true
              · simp only [finished, ↓reduceIte] at run
                exact wake_lawful _ found asleep.1 run
              · simp only [finished, Bool.false_eq_true, ↓reduceIte, Prog.pure_run,
                  Option.some.injEq, Prod.mk.injEq, true_and] at run
                exact run ▸ Lawful.refl _
            · simp only [asleep, ↓reduceIte] at run
              by_cases reaped : pcb.status = .reaped
              · simp only [reaped, ↓reduceIte] at run
                obtain ⟨_, k3, removed, run⟩ := Prog.bind_inv run
                exact (pcbVecRemoveByPcb_lawful removed).trans (Lawful.destroy run)
              · simp only [reaped, ↓reduceIte, Prog.pure_run, Option.some.injEq,
                  Prod.mk.injEq, true_and] at run
                exact run ▸ Lawful.refl _

end Events

theorem event_lawful {event : Event} (meets : NotRekilled k event) (step : Step k event k') :
    Lawful k k' := by
  cases event with
  | spawnShell self => exact spawnShell_lawful step
  | shellReturned self => exact shellReturned_lawful step
  | initResumed self shell => exact initResumed_lawful step
  | procCreate self priority =>
      obtain ⟨_, k1, created, rest⟩ := Prog.bind_inv step
      simp only [Prog.pure_run, Option.some.injEq, Prod.mk.injEq, true_and] at rest
      exact rest ▸ kProcCreate_lawful created
  | setRoutineAndRun self proc => exact setRoutineAndRun_lawful step
  | kill self pid sig => exact kKill_lawful meets step
  | selfStopResumed self => exact selfStopResumed_lawful step
  | exit self => exact kExit_lawful step
  | sleep self length => exact kSleep_lawful step
  | sleepResumed self => exact kSleepResumed_lawful step
  | waitpid self pid nohang =>
      obtain ⟨_, k1, waited, rest⟩ := Prog.bind_inv step
      simp only [Prog.pure_run, Option.some.injEq, Prod.mk.injEq, true_and] at rest
      exact rest ▸ kWaitpid_lawful waited
  | waitpidJoined self child => exact kWaitpidJoined_lawful step
  | waitpidReap self child =>
      obtain ⟨_, k1, reaped, rest⟩ := Prog.bind_inv step
      simp only [Prog.pure_run, Option.some.injEq, Prod.mk.injEq, true_and] at rest
      exact rest ▸ kWaitpidReap_lawful reaped
  | nice self pid newPriority =>
      obtain ⟨_, k1, changed, rest⟩ := Prog.bind_inv step
      simp only [Prog.pure_run, Option.some.injEq, Prod.mk.injEq, true_and] at rest
      exact rest ▸ kNice_lawful changed
  | maintenancePass => exact maintenancePass_lawful step
  | pick level => exact pick_lawful step
  | idleTick => exact idleTick_lawful step
  | quantumEnd => exact quantumEnd_lawful step

theorem run_lawful (run : Run NotRekilled k k') : Lawful k k' := by
  induction run with
  | refl => exact Lawful.refl k
  | step _ meets step ih => exact ih.trans (event_lawful meets step)

theorem boot_settled : Settled .boot := by
  refine ⟨fun ptr pcb found => ?_, fun ptr pcb found finished => ?_⟩ <;>
    rw [boot_pcbs] at found <;> split at found
  · next here => exact here ▸ Nat.zero_lt_one
  · cases found
  · cases found
    simp [Pcb.over, initPcb] at finished
  · cases found

/-- A zombie's only later status is reaped, and a reaped process keeps its status for as long as
its PCB exists. -/
theorem lifecycle_forward {pcb pcb' : Pcb} (reached : Run NotRekilled .boot k)
    (later : Run NotRekilled k k') (before : k.pcbs ptr = some pcb)
    (after : k'.pcbs ptr = some pcb') :
    (pcb.status = .zombie → pcb'.status = .zombie ∨ pcb'.status = .reaped) ∧
      (pcb.status = .reaped → pcb'.status = .reaped) := by
  obtain ⟨settled, _⟩ := run_lawful reached boot_settled
  obtain ⟨_, advances⟩ := run_lawful later settled
  rcases advances.follows ptr pcb' after with fresh | ⟨pcb1, before', order⟩
  · exact absurd (settled.bounded ptr pcb before) (Nat.not_lt.mpr fresh)
  · obtain rfl := Option.some.inj (before.symm.trans before')
    exact order

def exitProcess : List Event := [.pick 1, .exit 2, .quantumEnd, .maintenancePass]

def waitForIt : List Event :=
  [.pick 0, .waitpid 1 3 false, .waitpidJoined 1 2, .waitpidReap 1 2]

def afterExit : KernelState := processStarted.after exitProcess

def afterWait : KernelState := afterExit.after waitForIt

section Example

variable {sound : KernelState → Event → Prop}

theorem afterExit_run (starts : ∀ k, ∀ event ∈ startProcess, sound k event)
    (exits : ∀ k, ∀ event ∈ exitProcess, sound k event) : Run sound .boot afterExit :=
  Run.of_runEvents (processStarted_run starts) exits (runEvents_after (by decide +kernel))

theorem afterWait_run (meets : ∀ k, ∀ event ∈ waitForIt, sound k event) :
    Run sound afterExit afterWait := Run.after _ meets (by decide +kernel)

theorem afterWait_status : (afterWait.pcbs 2).map (·.status) = some .reaped := by decide +kernel

end Example

theorem lifecycle_forward_afterWait :
    ∃ pcb pcb', afterExit.pcbs 2 = some pcb ∧ afterWait.pcbs 2 = some pcb' ∧
      (pcb.status = .zombie → pcb'.status = .zombie ∨ pcb'.status = .reaped) ∧
      (pcb.status = .reaped → pcb'.status = .reaped) := by
  obtain ⟨pcb, before⟩ : ∃ pcb, afterExit.pcbs 2 = some pcb :=
    Option.isSome_iff_exists.mp (by decide +kernel)
  obtain ⟨pcb', after, _⟩ := Option.map_eq_some_iff.mp afterWait_status
  exact ⟨pcb, pcb', before, after, lifecycle_forward
    (afterExit_run (by simp [startProcess, NotRekilled]) (by simp [exitProcess, NotRekilled]))
    (afterWait_run (by simp [waitForIt, NotRekilled])) before after⟩

/-- A reaped process that gets `P_SIGTERM` before the next pass is a zombie again. -/
theorem kill_revives_reaped :
    ¬ ∀ (k k' : KernelState) (ptr : PcbPtr) (pcb pcb' : Pcb),
      Run (fun _ _ => True) .boot k → Run (fun _ _ => True) k k' →
      k.pcbs ptr = some pcb → k'.pcbs ptr = some pcb' →
      (pcb.status = .zombie → pcb'.status = .zombie ∨ pcb'.status = .reaped) ∧
        (pcb.status = .reaped → pcb'.status = .reaped) := by
  intro forward
  have reached : Run (fun _ _ => True) .boot afterWait :=
    Run.of_runEvents (afterExit_run (fun _ _ _ => trivial) fun _ _ _ => trivial)
      (fun _ _ _ => trivial) (runEvents_after (by decide +kernel))
  have killed : ((afterWait.after [.kill 1 3 pSigterm]).pcbs 2).map (·.status) = some .zombie := by
    decide +kernel
  obtain ⟨pcb, before, reaped⟩ := Option.map_eq_some_iff.mp afterWait_status
  obtain ⟨pcb', after, zombie⟩ := Option.map_eq_some_iff.mp killed
  have still := (forward _ _ 2 pcb pcb' reached
    (Run.after _ (fun _ _ _ => trivial) (by decide +kernel)) before after).2 reaped
  rw [zombie] at still
  cases still

end PennOs.Kernel
