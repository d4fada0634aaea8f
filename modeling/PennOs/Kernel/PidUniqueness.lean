import Mathlib.Data.List.Nodup
import Mathlib.Data.List.Perm.Basic
import Mathlib.Data.Int.Range
import PennOs.Kernel.CreationFrames

set_option autoImplicit false

/- PIDs of the PCBs in the vector, with calls of `k_proc_create` interleaved. -/
namespace PennOs.Kernel

variable {s s' : CreationState} {k' : KernelState} {self : PcbPtr} {creation : Creation}

/-- `event` is the init thread's creation of the shell. -/
def Event.SpawnsShell : Event → Prop
  | .spawnShell _ => True
  | _ => False

/-- While a process is inside `pcb_vec_push_back`, no other one enters it and the scheduler takes
no PCB out of the vector; no PID is chosen that a PCB on its way into the vector has. -/
def PublishedFirst (s : CreationState) : CreationEvent → Prop
  | .kernel event => (∃ creation ∈ s.creations, creation.stage ≠ .made) →
      (event.caller = none → NoReaped s.kernel) ∧ ¬event.SpawnsShell
  | .choosePid _ _ => ∀ creation ∈ s.creations, ∀ pid ∈ s.kernel.pidAt creation.proc,
      ¬SmallestFree s.kernel pid
  | .loadIndex self => ∀ creation ∈ s.creations, creation.self ≠ self → creation.stage = .made
  | _ => True

instance (k : KernelState) : Decidable (NoReaped k) := by
  unfold NoReaped
  infer_instance

instance (k : KernelState) (pid : Int) : Decidable (SmallestFree k pid) := by
  unfold SmallestFree
  infer_instance

instance (event : Event) : Decidable event.SpawnsShell :=
  match event with
  | .spawnShell _ => isTrue trivial
  | .shellReturned _ | .initResumed _ _ | .procCreate _ _ | .setRoutineAndRun _ _ | .kill _ _ _ |
    .selfStopResumed _ | .exit _ | .sleep _ _ | .sleepResumed _ | .waitpid _ _ _ |
    .waitpidJoined _ _ | .waitpidReap _ _ | .nice _ _ _ | .maintenancePass | .pick _ |
    .idleTick | .quantumEnd => isFalse id

instance (s : CreationState) (event : CreationEvent) : Decidable (PublishedFirst s event) := by
  cases event <;> unfold PublishedFirst <;> infer_instance

/-- What the array holds when a call has come this far. -/
def Stage.Fits (s : CreationState) (proc : PcbPtr) : Stage → Prop
  | .made => True
  | .indexed slot => slot = s.kernel.allUnreapedPcbVector.length
  | .stored => s.beyond s.kernel.allUnreapedPcbVector.length = some proc
  | .counted length => length = s.kernel.allUnreapedPcbVector.length ∧
      s.beyond s.kernel.allUnreapedPcbVector.length = some proc

/-- The PCBs in the vector, and those on their way. -/
def CreationState.held (s : CreationState) : List PcbPtr :=
  s.kernel.allUnreapedPcbVector ++ s.creations.map Creation.proc

/-- A PCB that has no thread yet and is not the shell's. -/
def Unstarted (k : KernelState) (ptr : PcbPtr) : Prop :=
  ∃ pcb, k.pcbs ptr = some pcb ∧ pcb.pid ≠ shellPid ∧ pcb.status = .stopped ∧ pcb.thrd = .absent

/-- The invariant of runs that publish first. -/
structure Publishing (s : CreationState) : Prop where
  roster : Roster s.kernel
  pids : (s.held.map s.kernel.pidAt).Nodup
  unstarted : ∀ creation ∈ s.creations, Unstarted s.kernel creation.proc
  shell : some shellPid ∈ s.kernel.allUnreapedPcbVector.map s.kernel.pidAt →
    s.kernel.shellSpawned = true
  selfs : (s.creations.map Creation.self).Nodup
  fits : ∀ creation ∈ s.creations, creation.stage.Fits s creation.proc
  single : ∀ creation ∈ s.creations, ∀ other ∈ s.creations, creation.stage ≠ .made →
    other.stage ≠ .made → creation.self = other.self

section Creations

theorem creations_perm {creations : List Creation} (selfs : (creations.map Creation.self).Nodup)
    (member : creation ∈ creations) :
    (creation :: creations.filter (·.self ≠ creation.self)).Perm creations := by
  induction creations with
  | nil => cases member
  | cons first rest ih =>
      rw [List.map_cons, List.nodup_cons] at selfs
      obtain ⟨off, selfs⟩ := selfs
      rcases List.mem_cons.mp member with rfl | later
      · have all : rest.filter (·.self ≠ creation.self) = rest := by
          refine List.filter_eq_self.mpr fun other listed => decide_eq_true fun same => ?_
          exact off (same ▸ List.mem_map_of_mem listed)
        rw [List.filter_cons_of_neg (by simp), all]
      · have apart : first.self ≠ creation.self :=
          fun same => off (same ▸ List.mem_map_of_mem later)
        rw [List.filter_cons_of_pos (by simpa using apart)]
        exact (List.Perm.swap _ _ _).trans ((ih selfs later).cons first)

theorem creationOf_inv (run : creationOf self s = some (creation, s')) :
    s = s' ∧ creation ∈ s.creations ∧ creation.self = self := by
  rw [creationOf, Prog.get_bind] at run
  cases found : s.creations.find? (·.self = self) with
  | none =>
      rw [found] at run
      cases run
  | some first =>
      rw [found] at run
      cases run
      exact ⟨rfl, List.mem_of_find?_eq_some found, by simpa using List.find?_some found⟩

theorem setCreation_held {stage : Stage} (selfs : (s.creations.map Creation.self).Nodup)
    (member : creation ∈ s.creations) :
    (s.setCreation { creation with stage := stage }).held.Perm s.held := by
  have same : (s.setCreation { creation with stage := stage }).creations.map Creation.proc =
      (creation :: s.creations.filter (·.self ≠ creation.self)).map Creation.proc := rfl
  unfold CreationState.held
  rw [same]
  exact ((creations_perm selfs member).map _).append_left _

/-- A call goes on to its next stage. -/
theorem Publishing.setCreation {stage : Stage} (publishing : Publishing s)
    (member : creation ∈ s.creations) (fits : stage.Fits s creation.proc)
    (others : ∀ other ∈ s.creations, other.self ≠ creation.self → other.stage = .made) :
    Publishing (s.setCreation { creation with stage := stage }) := by
  have perm := creations_perm publishing.selfs member
  have kept : ∀ other ∈ s.creations.filter (·.self ≠ creation.self),
      other ∈ s.creations ∧ other.stage = .made := by
    intro other listed
    obtain ⟨listed, apart⟩ := List.mem_filter.mp listed
    exact ⟨listed, others other listed (of_decide_eq_true apart)⟩
  refine ⟨publishing.roster, ?_, ?_, publishing.shell, ?_, ?_, ?_⟩
  · exact ((setCreation_held publishing.selfs member).map _).nodup_iff.mpr publishing.pids
  · intro other listed
    rcases List.mem_cons.mp listed with rfl | old
    · exact publishing.unstarted creation member
    · exact publishing.unstarted other (kept other old).1
  · have same : (s.setCreation { creation with stage := stage }).creations.map Creation.self =
        (creation :: s.creations.filter (·.self ≠ creation.self)).map Creation.self := rfl
    rw [same]
    exact (perm.map _).nodup_iff.mpr publishing.selfs
  · intro other listed
    rcases List.mem_cons.mp listed with rfl | old
    · exact fits
    · rw [(kept other old).2]
      trivial
  · intro first listed second listed' busy busy'
    rcases List.mem_cons.mp listed with rfl | old
    · rcases List.mem_cons.mp listed' with rfl | old'
      · rfl
      · exact absurd (kept second old').2 busy'
    · exact absurd (kept first old).2 busy

/-- A call inside `pcb_vec_push_back` is the only one there. -/
theorem Publishing.alone (publishing : Publishing s) (member : creation ∈ s.creations)
    (busy : creation.stage ≠ .made) :
    ∀ other ∈ s.creations, other.self ≠ creation.self → other.stage = .made := by
  intro other listed apart
  by_contra busy'
  exact apart (publishing.single other listed creation member busy' busy)

theorem setSlot_end {proc : PcbPtr} :
    s.setSlot s.kernel.allUnreapedPcbVector.length proc = { s with
      beyond := Function.update s.beyond s.kernel.allUnreapedPcbVector.length (some proc) } := by
  rw [CreationState.setSlot, if_neg (Nat.lt_irrefl _)]

theorem Publishing.setSlot (publishing : Publishing s) (member : creation ∈ s.creations)
    (stage : creation.stage = .indexed s.kernel.allUnreapedPcbVector.length) :
    Publishing (s.setSlot s.kernel.allUnreapedPcbVector.length creation.proc) := by
  rw [setSlot_end]
  have others := publishing.alone member (stage ▸ nofun)
  refine ⟨publishing.roster, publishing.pids, publishing.unstarted, publishing.shell,
    publishing.selfs, fun other listed => ?_, publishing.single⟩
  by_cases own : other.self = creation.self
  · obtain rfl : other = creation := List.inj_on_of_nodup_map publishing.selfs listed member own
    rw [stage]
    rfl
  · rw [others other listed own]
    trivial

/-- The slots before the length are the vector's. -/
theorem slots_below (count : Nat) (within : count ≤ s.kernel.allUnreapedPcbVector.length) :
    (List.range count).mapM s.slot = some (s.kernel.allUnreapedPcbVector.take count) := by
  induction count with
  | zero => rfl
  | succ count ih =>
      have below : count < s.kernel.allUnreapedPcbVector.length := within
      have here : s.slot count = some s.kernel.allUnreapedPcbVector[count] := by
        rw [CreationState.slot, if_pos below, List.getElem?_eq_getElem within]
      rw [List.range_succ, List.mapM_append, ih (Nat.le_of_succ_le within),
        List.take_succ_eq_append_getElem within]
      simp [here]

theorem stored_vector {proc : PcbPtr} {vector : List PcbPtr}
    (last : s.beyond s.kernel.allUnreapedPcbVector.length = some proc)
    (read : (List.range (s.kernel.allUnreapedPcbVector.length + 1)).mapM s.slot = some vector) :
    vector = s.kernel.allUnreapedPcbVector ++ [proc] := by
  have below : (List.range s.kernel.allUnreapedPcbVector.length).mapM s.slot =
      some s.kernel.allUnreapedPcbVector := by
    rw [slots_below _ (Nat.le_refl _), List.take_length]
  rw [List.range_succ, List.mapM_append, below] at read
  simp [CreationState.slot, last] at read
  exact read.symm

theorem dropCreation_perm (selfs : (s.creations.map Creation.self).Nodup)
    (member : creation ∈ s.creations) :
    (creation.proc :: (s.dropCreation creation.self).creations.map Creation.proc).Perm
      (s.creations.map Creation.proc) :=
  (creations_perm selfs member).map Creation.proc

theorem unstarted_apart (publishing : Publishing s) (member : creation ∈ s.creations) :
    creation.proc ∉ s.kernel.allUnreapedPcbVector := by
  intro listed
  have nodup := publishing.pids
  rw [CreationState.held, List.map_append] at nodup
  exact (List.nodup_append.mp nodup).2.2 _ (List.mem_map_of_mem listed) _
    (List.mem_map_of_mem (List.mem_map_of_mem member)) rfl

/-- The PCB of a call that ends enters the vector. -/
theorem Publishing.publish (publishing : Publishing s) (member : creation ∈ s.creations)
    (busy : creation.stage ≠ .made) (beyond : Nat → Option PcbPtr) :
    Publishing ((({ s with beyond := beyond } : CreationState).setVector
      (s.kernel.allUnreapedPcbVector ++ [creation.proc])).dropCreation creation.self) := by
  have perm := dropCreation_perm publishing.selfs member
  obtain ⟨pcb, found, notShell, _⟩ := publishing.unstarted creation member
  have kept : ∀ other ∈ (s.dropCreation creation.self).creations,
      other ∈ s.creations ∧ other.stage = .made := by
    intro other listed
    obtain ⟨listed, apart⟩ := List.mem_filter.mp listed
    exact ⟨listed, publishing.alone member busy other listed (of_decide_eq_true apart)⟩
  have heldPerm : (s.kernel.allUnreapedPcbVector ++ [creation.proc] ++
      (s.dropCreation creation.self).creations.map Creation.proc).Perm s.held := by
    rw [List.append_assoc]
    exact perm.append_left _
  refine ⟨publishing.roster.push found (unstarted_apart publishing member), ?_, ?_, ?_, ?_, ?_, ?_⟩
  · exact (heldPerm.map _).nodup_iff.mpr publishing.pids
  · exact fun other listed => publishing.unstarted other (kept other listed).1
  · intro shellListed
    refine publishing.shell ?_
    change some shellPid ∈ (s.kernel.allUnreapedPcbVector ++ [creation.proc]).map _ at shellListed
    rw [List.map_append, List.mem_append] at shellListed
    rcases shellListed with old | new
    · exact old
    · have pid : some shellPid = s.kernel.pidAt creation.proc := List.mem_singleton.mp new
      rw [pidAt_of_found found, Option.some.injEq] at pid
      exact absurd pid.symm notShell
  · exact publishing.selfs.sublist (List.filter_sublist.map _)
  · intro other listed
    rw [(kept other listed).2]
    trivial
  · intro first listed _ _ busy'
    exact absurd (kept first listed).2 busy'

end Creations

section Steps

variable {k : KernelState} {event : Event} {ptr : PcbPtr}

/-- No event touches a PCB that has no thread and is not in the vector. -/
theorem unstarted_stays (touches : Touches k event k') (old : ptr < k.nextPtr)
    (kept : ∃ pcb', k'.pcbs ptr = some pcb') (unlisted : ptr ∉ k.allUnreapedPcbVector)
    (notStarted : ∀ self, event ≠ .setRoutineAndRun self ptr) (unstarted : Unstarted k ptr) :
    Unstarted k' ptr := by
  obtain ⟨pcb', found'⟩ := kept
  obtain ⟨pcb, found, notShell, stopped, absent⟩ := unstarted
  obtain ⟨pcb₁, found₁, pid, run⟩ := touches.pcb ptr pcb' old found'
  obtain rfl := Option.some.inj (found.symm.trans found₁)
  refine ⟨pcb', found', pid ▸ notShell, ?_⟩
  rcases run with ⟨status, thrd⟩ | touch
  · exact ⟨status.trans stopped, thrd.trans absent⟩
  · exfalso
    cases touch with
    | own calls live thread =>
        rw [absent] at live
        cases live
    | started self isStart absent => exact notStarted self isStart
    | stopped self isStop listed status thread => exact unlisted listed
    | continued self isCont listed before status thread => exact unlisted listed
    | terminated self isTerm listed before thread status ended => exact unlisted listed
    | woken scheduler before status thread =>
        rw [stopped] at before
        cases before
    | reaped self isReap before status thread =>
        rw [stopped] at before
        cases before

/-- The slots that a stage is about stay. -/
theorem Stage.Fits.congr {stage : Stage} {proc : PcbPtr} (fits : stage.Fits s proc)
    (same : stage ≠ .made →
      s'.kernel.allUnreapedPcbVector = s.kernel.allUnreapedPcbVector ∧
        s'.beyond s.kernel.allUnreapedPcbVector.length =
          s.beyond s.kernel.allUnreapedPcbVector.length) : stage.Fits s' proc := by
  cases stage with
  | made => trivial
  | indexed slot =>
      obtain ⟨vector, _⟩ := same nofun
      show slot = s'.kernel.allUnreapedPcbVector.length
      rw [vector]
      exact fits
  | stored =>
      obtain ⟨vector, beyond⟩ := same nofun
      show s'.beyond s'.kernel.allUnreapedPcbVector.length = some proc
      rw [vector, beyond]
      exact fits
  | counted length =>
      obtain ⟨vector, beyond⟩ := same nofun
      show length = s'.kernel.allUnreapedPcbVector.length ∧
        s'.beyond s'.kernel.allUnreapedPcbVector.length = some proc
      rw [vector, beyond]
      exact fits

/-- The kernel moves on, and no PCB enters the vector. -/
theorem Publishing.setKernel (publishing : Publishing s) (roster : Roster k')
    (vector : k'.allUnreapedPcbVector.Sublist s.kernel.allUnreapedPcbVector)
    (pids : ∀ ptr ∈ k'.allUnreapedPcbVector, k'.pidAt ptr = s.kernel.pidAt ptr)
    (unstarted : ∀ creation ∈ s.creations,
      Unstarted k' creation.proc ∧ k'.pidAt creation.proc = s.kernel.pidAt creation.proc)
    (spawned : k'.shellSpawned = s.kernel.shellSpawned)
    (same : (∃ creation ∈ s.creations, creation.stage ≠ .made) →
      k'.allUnreapedPcbVector = s.kernel.allUnreapedPcbVector) : Publishing (s.setKernel k') := by
  have kept : (s.setKernel k').creations.Sublist s.creations := List.filter_sublist
  have held : (s.setKernel k').held.Sublist s.held := vector.append (kept.map _)
  refine ⟨roster, ?_, ?_, ?_, ?_, ?_, ?_⟩
  · have pidsSame : (s.setKernel k').held.map k'.pidAt =
        (s.setKernel k').held.map s.kernel.pidAt := by
      refine List.map_congr_left fun ptr listed => ?_
      rcases List.mem_append.mp listed with inVector | inCreation
      · exact pids ptr inVector
      · obtain ⟨creation, member, rfl⟩ := List.mem_map.mp inCreation
        exact (unstarted creation (kept.subset member)).2
    show ((s.setKernel k').held.map k'.pidAt).Nodup
    rw [pidsSame]
    exact publishing.pids.sublist (held.map _)
  · exact fun creation member => (unstarted creation (kept.subset member)).1
  · intro shellListed
    show k'.shellSpawned = true
    rw [spawned]
    refine publishing.shell ?_
    obtain ⟨ptr, listed, pid⟩ := List.mem_map.mp shellListed
    rw [show (s.setKernel k').kernel.pidAt ptr = s.kernel.pidAt ptr from pids ptr listed] at pid
    exact List.mem_map.mpr ⟨ptr, vector.subset listed, pid⟩
  · exact publishing.selfs.sublist (kept.map _)
  · intro creation member
    have fits := publishing.fits creation (kept.subset member)
    exact fits.congr fun busy => ⟨same ⟨creation, kept.subset member, busy⟩,
      if_neg (Nat.lt_irrefl _)⟩
  · exact fun first listed second listed' =>
      publishing.single first (kept.subset listed) second (kept.subset listed')

theorem Unstarted.pidAt_ne_none (unstarted : Unstarted k ptr) : k.pidAt ptr ≠ none := by
  obtain ⟨pcb, found, _⟩ := unstarted
  rw [pidAt_of_found found]
  nofun

/-- The shell enters the vector while no call is inside `pcb_vec_push_back`. -/
theorem Publishing.spawnShell (publishing : Publishing s)
    (made : ∀ creation ∈ s.creations, creation.stage = .made) (roster : Roster k')
    (unstarted : ∀ creation ∈ s.creations, Unstarted k' creation.proc)
    (step : Step s.kernel (.spawnShell self) k') : Publishing (s.setKernel k') := by
  obtain ⟨unspawned, spawned, vector, pids⟩ := spawnShell_made publishing.roster step
  have kept : (s.setKernel k').creations.Sublist s.creations := List.filter_sublist
  have old : ∀ ptr ∈ s.held, ptr ≠ s.kernel.nextPtr := by
    intro ptr held
    rcases List.mem_append.mp held with inVector | inCreation
    · obtain ⟨pcb, found⟩ := publishing.roster.allocated ptr inVector
      exact Nat.ne_of_lt (publishing.roster.bounded ptr pcb found)
    · obtain ⟨creation, member, rfl⟩ := List.mem_map.mp inCreation
      obtain ⟨pcb, found, _⟩ := publishing.unstarted creation member
      exact Nat.ne_of_lt (publishing.roster.bounded _ pcb found)
  have unused : some shellPid ∉ s.held.map s.kernel.pidAt := by
    intro used
    rw [CreationState.held, List.map_append, List.mem_append] at used
    rcases used with inVector | inCreation
    · rw [publishing.shell inVector] at unspawned
      cases unspawned
    · obtain ⟨ptr, listed, pid⟩ := List.mem_map.mp inCreation
      obtain ⟨creation, member, rfl⟩ := List.mem_map.mp listed
      obtain ⟨pcb, found, notShell, _⟩ := publishing.unstarted creation member
      rw [pidAt_of_found found, Option.some.injEq] at pid
      exact notShell pid
  have heldPids : (s.held.map k'.pidAt) = s.held.map s.kernel.pidAt := by
    refine List.map_congr_left fun ptr held => ?_
    rw [pids, Function.update_of_ne (old ptr held)]
  have all : ((s.kernel.nextPtr :: s.held).map k'.pidAt).Nodup := by
    rw [List.map_cons, heldPids, pids, Function.update_self]
    exact List.nodup_cons.mpr ⟨unused, publishing.pids⟩
  refine ⟨roster, ?_, ?_, fun _ => spawned, ?_, ?_, ?_⟩
  · have perm : (k'.allUnreapedPcbVector ++ s.creations.map Creation.proc).Perm
        (s.kernel.nextPtr :: s.held) := by
      rw [vector, List.append_assoc, List.singleton_append]
      exact List.perm_middle
    have sub : (s.setKernel k').held.Sublist
        (k'.allUnreapedPcbVector ++ s.creations.map Creation.proc) :=
      (kept.map _).append_left _
    exact ((perm.map _).nodup_iff.mpr all).sublist (sub.map _)
  · exact fun creation member => unstarted creation (kept.subset member)
  · exact publishing.selfs.sublist (kept.map _)
  · intro creation member
    rw [made creation (kept.subset member)]
    trivial
  · exact fun first listed _ _ busy => absurd (made first (kept.subset listed)) busy

theorem Publishing.kernelStep (publishing : Publishing s)
    (meets : PublishedFirst s (.kernel event)) (allows : s.Allows event)
    (step : Step s.kernel event k') : Publishing (s.setKernel k') := by
  have roster : Roster k' := event_enrols event _ _ _ step publishing.roster
  have touches := event_touches step
  have stays : (∀ ptr pcb, s.kernel.pcbs ptr = some pcb → pcb.status ≠ .reaped →
      ∃ pcb', k'.pcbs ptr = some pcb') →
      ∀ creation ∈ s.creations, Unstarted k' creation.proc ∧
        k'.pidAt creation.proc = s.kernel.pidAt creation.proc := by
    intro survive creation member
    have unstarted := publishing.unstarted creation member
    obtain ⟨pcb, found, _, stopped, _⟩ := unstarted
    have old := publishing.roster.bounded _ pcb found
    have after : Unstarted k' creation.proc :=
      unstarted_stays touches old (survive _ pcb found (stopped ▸ nofun))
        (unstarted_apart publishing member)
        (fun self isStart => by
          subst isStart
          exact allows creation member rfl)
        (publishing.unstarted creation member)
    exact ⟨after, pidAt_of_touches touches old after.pidAt_ne_none⟩
  by_cases shell : ∃ self, event = .spawnShell self
  · obtain ⟨self, rfl⟩ := shell
    have made : ∀ creation ∈ s.creations, creation.stage = .made := by
      intro creation member
      by_contra busy
      exact (meets ⟨creation, member, busy⟩).2 trivial
    obtain ⟨_, _, _, pids⟩ := spawnShell_made publishing.roster step
    refine publishing.spawnShell made roster (fun creation member => (stays ?_ creation member).1)
      step
    intro ptr pcb found _
    have here : k'.pidAt ptr = some pcb.pid := by
      rw [pids, Function.update_of_ne (Nat.ne_of_lt (publishing.roster.bounded ptr pcb found)),
        pidAt_of_found found]
    obtain ⟨pcb', found', _⟩ := Option.map_eq_some_iff.mp here
    exact ⟨pcb', found'⟩
  · have leaves : Leaves s.kernel event k' := by
      refine event_leaves step ?_ fun self isShell => shell ⟨self, isShell⟩
      rintro self priority rfl
      exact allows
    refine publishing.setKernel roster leaves.vector (fun ptr listed => ?_) (stays leaves.survive)
      leaves.shellSpawned fun busy => leaves.same (meets busy).1
    obtain ⟨pcb, found⟩ := publishing.roster.allocated ptr (leaves.vector.subset listed)
    refine pidAt_of_touches touches (publishing.roster.bounded ptr pcb found) ?_
    obtain ⟨pcb', found'⟩ := roster.allocated ptr listed
    rw [pidAt_of_found found']
    nofun

theorem onKernel_inv {α : Type} {p : KernelM α} {result : α}
    (run : onKernel p s = some (result, s')) :
    ∃ k', p s.kernel = some (result, k') ∧ s' = s.setKernel k' := by
  obtain ⟨⟨result', k'⟩, ran, pair⟩ := Option.map_eq_some_iff.mp run
  cases pair
  exact ⟨k', ran, rfl⟩

/-- A call with a new PCB begins. -/
theorem Publishing.announce {proc : PcbPtr} (publishing : Publishing s)
    (idle : ∀ creation ∈ s.creations, creation.self ≠ self) (unstarted : Unstarted s.kernel proc)
    (unused : s.kernel.pidAt proc ∉ s.held.map s.kernel.pidAt) :
    Publishing (s.setCreation ⟨self, proc, .made⟩) := by
  have all : s.creations.filter (·.self ≠ self) = s.creations :=
    List.filter_eq_self.mpr fun other listed => decide_eq_true (idle other listed)
  have same : (s.setCreation ⟨self, proc, .made⟩).creations = ⟨self, proc, .made⟩ :: s.creations :=
    congrArg _ all
  refine ⟨publishing.roster, ?_, ?_, publishing.shell, ?_, ?_, ?_⟩
  · have perm : (s.setCreation ⟨self, proc, .made⟩).held.Perm (proc :: s.held) := by
      unfold CreationState.held
      rw [same]
      exact List.perm_middle
    refine (perm.map _).nodup_iff.mpr ?_
    exact List.nodup_cons.mpr ⟨unused, publishing.pids⟩
  · intro creation member
    rw [same] at member
    rcases List.mem_cons.mp member with rfl | old
    · exact unstarted
    · exact publishing.unstarted creation old
  · rw [same, List.map_cons]
    refine List.nodup_cons.mpr ⟨fun listed => ?_, publishing.selfs⟩
    obtain ⟨other, member, own⟩ := List.mem_map.mp listed
    exact idle other member own
  · intro creation member
    rw [same] at member
    rcases List.mem_cons.mp member with rfl | old
    · trivial
    · exact publishing.fits creation old
  · intro first listed second listed' busy busy'
    rw [same] at listed listed'
    rcases List.mem_cons.mp listed with rfl | old
    · exact absurd rfl busy
    rcases List.mem_cons.mp listed' with rfl | old'
    · exact absurd rfl busy'
    · exact publishing.single first old second old' busy busy'

theorem choosePid_publishing {priority : Level} (publishing : Publishing s)
    (meets : PublishedFirst s (.choosePid self priority))
    (run : choosePid self priority s = some ((), s')) : Publishing s' := by
  unfold choosePid at run
  rw [Prog.get_bind] at run
  split at run
  · cases run
  next idle =>
  obtain ⟨proc, t, making, run⟩ := Prog.bind_inv run
  obtain ⟨k', made, rfl⟩ := onKernel_inv making
  simp only [Prog.modify_run, Option.some.injEq, Prod.mk.injEq, true_and] at run
  subst run
  obtain ⟨pid, smallest, ⟨rfl, vector, spawned, pids, pcb, found, stopped, absent⟩, roster, same,
    caller, callerFound, live⟩ := makePcb_made publishing.roster made
  have oldPids : ∀ ptr, ptr < s.kernel.nextPtr → k'.pidAt ptr = s.kernel.pidAt ptr := by
    intro ptr old
    rw [pids, Function.update_of_ne (Nat.ne_of_lt old)]
  have listedOld : ∀ ptr ∈ k'.allUnreapedPcbVector, ptr < s.kernel.nextPtr := by
    intro ptr listed
    obtain ⟨pcb, found⟩ := publishing.roster.allocated ptr (vector ▸ listed)
    exact publishing.roster.bounded ptr pcb found
  have unstarted : ∀ creation ∈ s.creations,
      Unstarted k' creation.proc ∧ k'.pidAt creation.proc = s.kernel.pidAt creation.proc := by
    intro creation member
    obtain ⟨pcb, found, notShell, stopped, absent⟩ := publishing.unstarted creation member
    have old := publishing.roster.bounded _ pcb found
    have here : k'.pidAt creation.proc = some pcb.pid := by
      rw [oldPids _ old, pidAt_of_found found]
    obtain ⟨pcb', found', samePid⟩ := Option.map_eq_some_iff.mp here
    obtain ⟨pcb₁, found₁, _, _, run⟩ := same.pcb _ pcb' old found'
    obtain rfl := Option.some.inj (found.symm.trans found₁)
    have apart : creation.proc ≠ self := by
      intro own
      rw [own, callerFound, Option.some.injEq] at found
      rw [← found, live] at absent
      cases absent
    obtain ⟨status, thrd⟩ := run apart
    exact ⟨⟨pcb', found', samePid ▸ notShell, status.trans stopped, thrd.trans absent⟩,
      here.trans (pidAt_of_found found).symm⟩
  have moved : Publishing (s.setKernel k') :=
    publishing.setKernel roster (vector ▸ .refl _)
      (fun ptr listed => oldPids ptr (listedOld ptr listed)) unstarted spawned fun _ => vector
  have kept : (s.setKernel k').creations.Sublist s.creations := List.filter_sublist
  have newPid : k'.pidAt s.kernel.nextPtr = some pid := by
    rw [pids, Function.update_self]
  refine moved.announce (fun creation member own => ?_) ⟨pcb, found, ?_, stopped, absent⟩ ?_
  · exact idle ⟨creation, kept.subset member, own⟩
  · rw [pidAt_of_found found, Option.some.injEq] at newPid
    have above := smallest.1
    unfold shellPid
    omega
  · intro used
    change k'.pidAt s.kernel.nextPtr ∈ (s.setKernel k').held.map k'.pidAt at used
    rw [newPid] at used
    obtain ⟨ptr, held, here⟩ := List.mem_map.mp used
    rcases List.mem_append.mp held with inVector | inCreation
    · rw [oldPids ptr (listedOld ptr inVector)] at here
      exact smallest.2.1 (List.mem_map.mpr ⟨ptr, vector ▸ inVector, here⟩)
    · obtain ⟨creation, member, rfl⟩ := List.mem_map.mp inCreation
      rw [(unstarted creation (kept.subset member)).2] at here
      exact meets creation (kept.subset member) pid here smallest

theorem loadIndex_inv (run : loadIndex self s = some ((), s')) :
    ∃ creation ∈ s.creations, creation.self = self ∧ s' = s.setCreation
      { creation with stage := .indexed s.kernel.allUnreapedPcbVector.length } := by
  obtain ⟨creation, t, found, run⟩ := Prog.bind_inv run
  obtain ⟨rfl, member, own⟩ := creationOf_inv found
  cases stage : creation.stage <;> rw [stage] at run <;> cases run
  exact ⟨creation, member, own, rfl⟩

theorem storeSlot_inv (run : storeSlot self s = some ((), s')) :
    ∃ creation ∈ s.creations, ∃ index, creation.stage = .indexed index ∧
      s' = (s.setSlot index creation.proc).setCreation { creation with stage := .stored } := by
  obtain ⟨creation, t, found, run⟩ := Prog.bind_inv run
  obtain ⟨rfl, member, _⟩ := creationOf_inv found
  cases stage : creation.stage <;> rw [stage] at run <;> cases run
  exact ⟨creation, member, _, stage, rfl⟩

theorem loadLength_inv (run : loadLength self s = some ((), s')) :
    ∃ creation ∈ s.creations, creation.stage = .stored ∧ s' = s.setCreation
      { creation with stage := .counted s.kernel.allUnreapedPcbVector.length } := by
  obtain ⟨creation, t, found, run⟩ := Prog.bind_inv run
  obtain ⟨rfl, member, _⟩ := creationOf_inv found
  cases stage : creation.stage <;> rw [stage] at run <;> cases run
  exact ⟨creation, member, stage, rfl⟩

theorem storeLength_inv (run : storeLength self s = some ((), s')) :
    ∃ creation ∈ s.creations, ∃ length vector, creation.stage = .counted length ∧
      (List.range (length + 1)).mapM s.slot = some vector ∧
      s' = (({ s with beyond := s.slot } : CreationState).setVector vector).dropCreation
        creation.self := by
  obtain ⟨creation, t, found, run⟩ := Prog.bind_inv run
  obtain ⟨rfl, member, rfl⟩ := creationOf_inv found
  rw [Prog.get_bind] at run
  cases stage : creation.stage with
  | counted length =>
      rw [stage] at run
      cases read : (List.range (length + 1)).mapM s.slot with
      | none =>
          simp only [read] at run
          cases run
      | some vector =>
          simp only [read] at run
          cases run
          exact ⟨creation, member, length, vector, stage, read, rfl⟩
  | _ =>
      rw [stage] at run
      cases run

theorem step_publishing {event : CreationEvent} (publishing : Publishing s)
    (meets : PublishedFirst s event) (step : event.run s = some ((), s')) : Publishing s' := by
  cases event with
  | kernel event =>
      simp only [CreationEvent.run, Prog.get_bind] at step
      split at step
      · next allows =>
          obtain ⟨k', run, rfl⟩ := onKernel_inv step
          exact publishing.kernelStep meets allows run
      · cases step
  | choosePid self priority => exact choosePid_publishing publishing meets step
  | loadIndex self =>
      obtain ⟨creation, member, rfl, rfl⟩ := loadIndex_inv step
      exact publishing.setCreation member rfl meets
  | storeSlot self =>
      obtain ⟨creation, member, index, stage, rfl⟩ := storeSlot_inv step
      have fits := publishing.fits creation member
      rw [stage] at fits
      obtain rfl : index = _ := fits
      have storing := publishing.setSlot member stage
      have others := publishing.alone member (stage ▸ nofun)
      rw [setSlot_end] at storing ⊢
      exact storing.setCreation member (Function.update_self _ _ _) others
  | loadLength self =>
      obtain ⟨creation, member, stage, rfl⟩ := loadLength_inv step
      have fits := publishing.fits creation member
      rw [stage] at fits
      exact publishing.setCreation member ⟨rfl, fits⟩ (publishing.alone member (stage ▸ nofun))
  | storeLength self =>
      obtain ⟨creation, member, length, vector, stage, read, rfl⟩ := storeLength_inv step
      have fits := publishing.fits creation member
      rw [stage] at fits
      obtain ⟨rfl, last⟩ := fits
      obtain rfl := stored_vector last read
      exact publishing.publish member (stage ▸ nofun) _

theorem boot_publishing : Publishing .boot := by
  refine ⟨boot_roster, by decide, nofun, ?_, .nil, nofun, nofun⟩
  intro listed
  exact absurd listed (by decide)

theorem run_publishing (run : CreationRun PublishedFirst s s') (publishing : Publishing s) :
    Publishing s' := by
  induction run with
  | refl => exact publishing
  | step _ meets step ih => exact step_publishing ih meets step

/-- PCBs in the vector have different PIDs, where each new one is published before its PID is
chosen again. -/
theorem vector_pids_distinct (run : CreationRun PublishedFirst .boot s) :
    (s.kernel.allUnreapedPcbVector.map s.kernel.pidAt).Nodup := by
  have pids := (run_publishing run boot_publishing).pids
  rw [CreationState.held, List.map_append] at pids
  exact (List.nodup_append.mp pids).1

end Steps

section Witnesses

/-- A list of steps that each meet `sound`. -/
def soundCreations (sound : CreationState → CreationEvent → Prop)
    [∀ s event, Decidable (sound s event)] : List CreationEvent → CreationM Unit
  | [] => return ()
  | event :: rest => do
      let s ← Prog.get
      if sound s event then
        event.run
        soundCreations sound rest
      else Prog.fault

/-- The state a list of steps leads to. -/
def CreationState.after (s : CreationState) (events : List CreationEvent) : CreationState :=
  ((soundCreations (fun _ _ => True) events s).map Prod.snd).getD s

theorem soundCreations_run {sound : CreationState → CreationEvent → Prop}
    [∀ s event, Decidable (sound s event)] {events : List CreationEvent} {s₀ : CreationState}
    (before : CreationRun sound s₀ s) (run : soundCreations sound events s = some ((), s')) :
    CreationRun sound s₀ s' ∧ soundCreations (fun _ _ => True) events s = some ((), s') := by
  induction events generalizing s with
  | nil =>
      cases run
      exact ⟨before, rfl⟩
  | cons event rest ih =>
      simp only [soundCreations, Prog.get_bind] at run
      split at run
      · next meets =>
          obtain ⟨_, s₁, first, run⟩ := Prog.bind_inv run
          obtain ⟨reached, later⟩ := ih (before.step meets first) run
          simp only [soundCreations, Prog.get_bind, if_true]
          exact ⟨reached, (Prog.bind_of_run first _).trans later⟩
      · cases run

theorem CreationRun.after {sound : CreationState → CreationEvent → Prop}
    [∀ s event, Decidable (sound s event)] {events : List CreationEvent}
    (possible : (soundCreations sound events s).isSome = true) :
    CreationRun sound s (s.after events) := by
  obtain ⟨⟨_, last⟩, run⟩ := Option.isSome_iff_exists.mp possible
  obtain ⟨reached, later⟩ := soundCreations_run (.refl s) run
  rw [CreationState.after, later]
  exact reached

/-- `pcb_vec_push_back` without interruption. -/
def pushBack (self : PcbPtr) : List CreationEvent :=
  [.loadIndex self, .storeSlot self, .loadLength self, .storeLength self]

/-- The shell has started a process, which has the processor. -/
def processCreated : List CreationEvent :=
  [.kernel (.pick 0), .kernel (.spawnShell 0), .kernel .quantumEnd, .kernel .maintenancePass,
    .kernel (.pick 0), .choosePid 1 1] ++ pushBack 1 ++
  [.kernel (.setRoutineAndRun 1 2), .kernel .quantumEnd, .kernel .maintenancePass,
    .kernel (.pick 1)]

/-- The process creates a child; the shell creates one when that is in the vector. -/
def createdInTurn : CreationState := CreationState.boot.after
  (processCreated ++ [.choosePid 2 1] ++ pushBack 2 ++
    [.kernel .quantumEnd, .kernel (.pick 0), .choosePid 1 1] ++ pushBack 1)

theorem vector_pids_distinct_createdInTurn :
    (createdInTurn.kernel.allUnreapedPcbVector.map createdInTurn.kernel.pidAt).Nodup :=
  vector_pids_distinct (.after (by decide +kernel))

/-- The process has chosen a PID when its quantum ends; the shell chooses the same. -/
theorem vector_pids_not_distinct :
    ¬ ∀ s, CreationRun (fun _ _ => True) .boot s →
      (s.kernel.allUnreapedPcbVector.map s.kernel.pidAt).Nodup := by
  intro distinct
  refine absurd (distinct (CreationState.boot.after (processCreated ++ [.choosePid 2 1,
    .kernel .quantumEnd, .kernel (.pick 0), .choosePid 1 1] ++ pushBack 1 ++
    [.kernel .quantumEnd, .kernel (.pick 1)] ++ pushBack 2)) (.after (by decide +kernel))) ?_
  decide +kernel

end Witnesses

end PennOs.Kernel
