import PennOs.Kernel.ChildLists
import PennOs.Kernel.CreationFrames

set_option autoImplicit false

/- The search of `get_next_free_pid`, over a vector of PCBs with any PIDs. -/
namespace PennOs.Kernel

variable {k k' : KernelState} {pid : Int}

/-- The loop returns one of its candidates. -/
theorem nextFreePidLoop_candidate {used : List Int} {fuel : Nat} {candidate : Int}
    (run : nextFreePidLoop used fuel candidate k = some (pid, k')) : pid < candidate + fuel := by
  induction fuel generalizing candidate with
  | zero => cases run
  | succ fuel ih =>
      unfold nextFreePidLoop at run
      split at run
      · have later := ih run
        omega
      · cases run
        omega

theorem getNextFreePid_candidate (run : getNextFreePid k = some (pid, k')) :
    pid ≤ 3 + k.allUnreapedPcbVector.length := by
  simp only [getNextFreePid, Prog.get_bind] at run
  obtain ⟨used, k₁, read, run⟩ := Prog.bind_inv run
  have length := congrArg List.length (pidsOf_pids read)
  rw [List.length_map, List.length_map] at length
  have bound := nextFreePidLoop_candidate run
  omega

/-- `get_next_free_pid` ends with at most one candidate more than there are PCBs, all of them values of
`pid_t`, and returns the smallest PID from 3 on that no PCB in the vector has. -/
theorem getNextFreePid_least (k : KernelState)
    (allocated : ∀ ptr ∈ k.allUnreapedPcbVector, ∃ pcb, k.pcbs ptr = some pcb)
    (few : k.allUnreapedPcbVector.length < 2 ^ 31 - 3) :
    ∃ pid, getNextFreePid k = some (pid, k) ∧ SmallestFree k pid ∧
      pid - 3 + 1 ≤ k.allUnreapedPcbVector.length + 1 ∧ pid < 2 ^ 31 := by
  obtain ⟨pid, run⟩ := getNextFreePid_ends allocated
  have bound := getNextFreePid_candidate run
  obtain ⟨_, smallest⟩ := getNextFreePid_smallest run
  refine ⟨pid, run, smallest, ?_, ?_⟩
  · omega
  · omega

/-- The vector holds the PIDs 4, 9, 5, 3 and 1 in this order. -/
def crowdedPids : KernelState :=
  { KernelState.boot with
    pcbs ptr := [5, 1, 4, 3, 9][ptr]?.map fun pid => { initPcb with pid := pid }
    allUnreapedPcbVector := [2, 4, 0, 3, 1]
    nextPtr := 5 }

/-- Three candidates are taken before PID 6. -/
theorem getNextFreePid_least_crowdedPids :
    getNextFreePid crowdedPids = some (6, crowdedPids) ∧ SmallestFree crowdedPids 6 := by
  have allocated : ∀ ptr ∈ crowdedPids.allUnreapedPcbVector,
      (crowdedPids.pcbs ptr).isSome := by decide
  obtain ⟨pid, run, smallest, _⟩ := getNextFreePid_least crowdedPids
    (fun ptr member => Option.isSome_iff_exists.mp (allocated ptr member)) (by decide)
  have chosen : (getNextFreePid crowdedPids).map Prod.fst = some 6 := by decide
  rw [run] at chosen
  obtain rfl := Option.some.inj chosen
  exact ⟨run, smallest⟩

end PennOs.Kernel
