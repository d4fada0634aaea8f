import PennOs.Fat.MountRuns
import PennOs.Fat.Calls

set_option autoImplicit false

/- The flag `g_mounted` against what the process holds of the image, whatever the host does. -/
namespace PennOs.Fat

open Prog (Hoare Keeps)
open Fs

namespace Fs

/-- What the host does with the call that comes after `count` others. -/
def outcome (s : Fs) (count : Nat) : HostOutcome := (s.host[count]?).getD .done

/-- The state once the host has answered one call. -/
def answered (s : Fs) : Fs := { s with host := s.host.tail }

/-- `k_mount` accepts FAT[0]. -/
def SuperOk (s : Fs) : Prop :=
  2 ≤ s.fileSize ∧ (s.file 0).toNat < 5 ∧ 1 ≤ (s.file 1).toNat ∧ (s.file 1).toNat ≤ 32

instance (s : Fs) : Decidable s.SuperOk := inferInstanceAs (Decidable (_ ∧ _))

/-- The end of the root directory block, which `k_mount` reads. -/
def rootEnd (s : Fs) : Nat :=
  (s.file 1).toNat * blockSizes (s.file 0).toNat + blockSizes (s.file 0).toNat

/-- The number of the host call with which a failing `k_mount` of the file unmaps the FAT, if it gets
there. -/
def mountUndo (s : Fs) (fsName : List UInt8) : Option Nat :=
  let image := s.useImage fsName
  if s.outcome 0 = .done ∧ s.opens false fsName = true ∧ s.outcome 1 = .done ∧ image.SuperOk ∧
      s.outcome 2 = .done then
    if s.outcome 3 ≠ .done then some 4
    else if s.outcome 4 ≠ .done then some 5
    else if s.outcome 5 ≠ .done ∨ image.fileSize < image.rootEnd then some 6
    else none
  else none

/-- What the flag promises. -/
structure MountConsistent (s : Fs) : Prop where
  mapped : s.gMounted = true → ∃ mapping ∈ s.mappings, s.gFat = some mapping
  root : s.gMounted = true → ∃ root, s.gRootDir = some root ∧ root.handle ∈ s.buffers
  descriptor : s.gMounted = true → ∃ fd ∈ s.openFds, s.gFsFd = some fd
  blockSize : s.gMounted = true → s.gBlockSize = blockSizes (s.fat 0 % 256)
  superblock : s.gMounted = true → s.gSuperblock.fatBlockCount = s.fat 0 / 256
  released : s.gMounted = false → s.openFds = [] ∧ s.mappings = [] ∧ s.buffers = []

end Fs

/-- The calls that mount and unmount, for which the host call that gives a resource back does
not fail. -/
def ReleasesDone (s : Fs) : Call → Prop
  | .mkfs _ _ _ => True
  | .mount fsName => s.gMounted = false → ∀ i, s.mountUndo fsName.bytes = some i → s.outcome i = .done
  | .unmount => s.gMounted = true → (∀ i < 4, s.outcome i = .done) →
      s.outcome 4 = .done ∧ s.outcome 5 = .done
  | _ => False

/-- Nothing is mounted: the process holds these descriptors, mappings and buffers, and `count`
host calls were answered since `s₀`. -/
structure Holding (s₀ : Fs) (count : Nat) (fds : List Nat) (maps : List Mapping) (bufs : List Nat)
    (t : Fs) : Prop where
  unmounted : t.gMounted = false
  closed : ∀ fd < maxFd, (t.gFdTable fd).inUse = false
  next : ∀ i, t.outcome i = s₀.outcome (count + i)
  file : t.file = s₀.file
  fileSize : t.fileSize = s₀.fileSize
  fds : t.openFds = fds
  maps : t.mappings = maps
  bufs : t.buffers = bufs

/-- A volume is mounted. -/
structure Attached (s : Fs) : Prop where
  mounted : s.gMounted = true
  closed : ∀ fd < maxFd, (s.gFdTable fd).inUse = false
  descriptor : ∃ fd, s.gFsFd = some fd ∧ s.openFds = [fd]
  mapping : ∃ mapping, s.gFat = some mapping ∧ s.mappings = [mapping] ∧ 2 ≤ mapping.bytes
  root : ∃ root, s.gRootDir = some root ∧ s.buffers = [root.handle]
  super : ∃ config < 5, s.gBlockSize = blockSizes config ∧ 1 ≤ s.gSuperblock.fatBlockCount ∧
    s.fat 0 = s.gSuperblock.fatBlockCount * 256 + config

/-- Nothing is mounted and nothing is held. -/
structure Detached (s : Fs) : Prop where
  unmounted : s.gMounted = false
  closed : ∀ fd < maxFd, (s.gFdTable fd).inUse = false
  fds : s.openFds = []
  maps : s.mappings = []
  bufs : s.buffers = []

variable {s s₀ t : Fs} {count fd : Nat} {fds : List Nat} {maps : List Mapping} {bufs : List Nat}

section Host

theorem hostCall_eq (s : Fs) : hostCall s = some (s.outcome 0, s.answered) := by
  cases queue : s.host with
  | nil =>
      have same : s.answered = s := by
        cases s
        simp only at queue
        simp only [answered, queue, List.tail_nil]
      simp only [hostCall, queue, outcome, same, List.getElem?_nil, Option.getD_none]
  | cons first rest =>
      simp only [hostCall, queue, outcome, answered, List.tail_cons, List.getElem?_cons_zero,
        Option.getD_some]

theorem hostOk_eq (s : Fs) : hostOk s = some (decide (s.outcome 0 = .done), s.answered) := by
  rw [hostOk, Prog.bind_of_run (hostCall_eq s)]
  cases s.outcome 0 <;> rfl

theorem outcome_answered (s : Fs) (i : Nat) : s.answered.outcome i = s.outcome (1 + i) := by
  simp only [outcome, answered, List.getElem?_tail, Nat.add_comm]

end Host

section Mounting

theorem Holding.answered (holding : Holding s₀ count fds maps bufs t) :
    Holding s₀ (count + 1) fds maps bufs t.answered where
  unmounted := holding.unmounted
  closed := holding.closed
  next i := by rw [outcome_answered, holding.next, Nat.add_assoc]
  file := holding.file
  fileSize := holding.fileSize
  fds := holding.fds
  maps := holding.maps
  bufs := holding.bufs

theorem Holding.detached (holding : Holding s₀ count [] [] [] t) : Detached t :=
  ⟨holding.unmounted, holding.closed, holding.fds, holding.maps, holding.bufs⟩

theorem holding_hostOk (s₀ : Fs) (count : Nat) (fds : List Nat) (maps : List Mapping)
    (bufs : List Nat) :
    Hoare (Holding s₀ count fds maps bufs) hostOk fun ok t =>
      Holding s₀ (count + 1) fds maps bufs t ∧ (ok = true ↔ s₀.outcome count = .done) := by
  intro t ok u holding run
  rw [hostOk_eq] at run
  cases run
  refine ⟨holding.answered, ?_⟩
  rw [decide_eq_true_eq, holding.next, Nat.add_zero]

theorem holding_hostClose (s₀ : Fs) (count : Nat) (maps : List Mapping) (bufs : List Nat) :
    Hoare (Holding s₀ count [fd] maps bufs) (hostClose fd) fun _ t =>
      Holding s₀ (count + 1) [] maps bufs t := by
  refine .seq (fun _ => Holding s₀ count [] maps bufs) (.modify fun t holding => ?_) fun _ => ?_
  · have gone : [fd].erase fd = [] := by simp
    exact { holding with fds := by rw [closeFd, holding.fds, gone] }
  · exact (holding_hostOk s₀ count [] maps bufs).mono (fun _ start => start) fun _ _ held => held.1

theorem holding_hostMunmap (s₀ : Fs) (count : Nat) (fds : List Nat) (mapping : Mapping)
    (bufs : List Nat) (done : s₀.outcome count = .done) :
    Hoare (Holding s₀ count fds [mapping] bufs) (hostMunmap (some mapping)) fun _ t =>
      Holding s₀ (count + 1) fds [] bufs t := by
  refine .bind (holding_hostOk s₀ count fds [mapping] bufs) fun ok => .assume fun answer => ?_
  simp only [answer.mpr done, ↓reduceIte]
  refine .seq (fun _ => Holding s₀ (count + 1) fds [] bufs) (.modify fun t holding => ?_) fun _ =>
    .pure fun _ holding => holding
  exact { holding with maps := by simp [holding.maps] }

/-- A failing `k_mount` gives the mapping and the descriptor back. -/
theorem holding_giveUp (s₀ : Fs) (count : Nat) (fd : Nat) (mapping : Mapping)
    (done : s₀.outcome count = .done) (err : PennFatErr) :
    Hoare (Holding s₀ count [fd] [mapping] [])
      (do
        let _ ← hostMunmap (some mapping)
        let _ ← hostClose fd
        return err) fun _ t => Attached t ∨ Detached t := by
  refine .bind (holding_hostMunmap s₀ count [fd] mapping [] done) fun _ => ?_
  refine .bind (holding_hostClose s₀ (count + 1) [] []) fun _ => .pure fun _ holding => ?_
  exact .inr holding.detached

theorem holding_closeUp (s₀ : Fs) (count : Nat) (fd : Nat) (err : PennFatErr) :
    Hoare (Holding s₀ count [fd] [] [])
      (do
        let _ ← hostClose fd
        return err) fun _ t => Attached t ∨ Detached t :=
  .bind (holding_hostClose s₀ count [] []) fun _ => .pure fun _ holding => .inr holding.detached

theorem mallocRoot_eq (s : Fs) : mallocRoot s =
    if s.outcome 0 = .done then
      some (some s.nextHandle,
        { s.answered with buffers := s.nextHandle :: s.buffers, nextHandle := s.nextHandle + 1 })
    else some (none, s.answered) := by
  rw [mallocRoot, malloc, Prog.bind_of_run (hostOk_eq s)]
  by_cases room : s.outcome 0 = .done
  · simp only [room, decide_true, ↓reduceIte]
    rfl
  · simp only [room, decide_false, Bool.false_eq_true, ↓reduceIte, Prog.pure_run]

theorem hostRead_eq (s : Fs) (start len : Nat) : hostRead start len s =
    if s.outcome 0 = .done ∧ start + len ≤ s.fileSize then
      some (some fun j => if j < len then s.file (start + j) else 0, s.answered)
    else some (none, s.answered) := by
  rw [hostRead, Prog.bind_of_run (hostOk_eq s)]
  by_cases got : s.outcome 0 = .done
  · simp only [got, decide_true, ↓reduceIte, true_and, Prog.get_bind]
    exact Prog.ite_run _ _ _ _
  · simp only [got, decide_false, Bool.false_eq_true, ↓reduceIte, false_and, Prog.pure_run]

/-- `k_mount` once the FAT is mapped. -/
theorem loadRoot_states {mapping : Mapping} {err : PennFatErr} {u : Fs}
    (holding : Holding s₀ 3 [fd] [mapping] [] t) (pointer : t.gFat = some mapping)
    (bytes : 2 ≤ mapping.bytes) (descriptor : t.gFsFd = some fd) (superOk : s₀.SuperOk)
    (size : t.gBlockSize = blockSizes (s₀.file 0).toNat)
    (malloc : s₀.outcome 3 ≠ .done → s₀.outcome 4 = .done)
    (seek : s₀.outcome 3 = .done → s₀.outcome 4 ≠ .done → s₀.outcome 5 = .done)
    (read : s₀.outcome 3 = .done → s₀.outcome 4 = .done →
      s₀.outcome 5 ≠ .done ∨ s₀.fileSize < s₀.rootEnd → s₀.outcome 6 = .done)
    (run : loadRoot fd (t.fat 0) (s₀.file 1).toNat mapping t = some (err, u)) :
    Attached u ∨ Detached u := by
  have mapped : t.fatMapped 0 = true := by
    simp only [fatMapped, pointer, holding.maps, List.contains_cons, beq_self_eq_true, Bool.true_or,
      Bool.true_and, decide_eq_true_eq]
    omega
  have get : fatGet 0 t = some (t.fat 0, t) := by simp only [fatGet, mapped, ↓reduceIte]
  unfold loadRoot at run
  rw [Prog.get_bind, Prog.bind_of_run get] at run
  simp only [ne_eq, not_true_eq_false, ↓reduceIte, Prog.modify_bind] at run
  have next : ∀ i, t.outcome i = s₀.outcome (3 + i) := holding.next
  have zero : t.outcome 0 = s₀.outcome 3 := next 0
  obtain ⟨made, t₁, make, run⟩ := Prog.bind_inv run
  rw [mallocRoot_eq] at make
  split at make
  · next room =>
      have done : s₀.outcome 3 = .done := zero.symm.trans room
      cases make
      simp only [Prog.modify_bind] at run
      obtain ⟨sought, t₂, find, run⟩ := Prog.bind_inv run
      rw [hostOk_eq] at find
      cases find
      have one : t.answered.outcome 0 = s₀.outcome 4 := (outcome_answered t 0).trans (next 1)
      have two : t.answered.answered.outcome 0 = s₀.outcome 5 :=
        (outcome_answered _ 0).trans ((outcome_answered t 1).trans (next 2))
      split at run
      · next found =>
          have sought : s₀.outcome 4 = .done := one.symm.trans (of_decide_eq_true found)
          obtain ⟨root, t₃, fetch, run⟩ := Prog.bind_inv run
          rw [hostRead_eq] at fetch
          split at fetch
          · next whole =>
              cases fetch
              cases run
              left
              exact
                { mounted := rfl
                  closed := fun _ _ => rfl
                  descriptor := ⟨fd, descriptor, holding.fds⟩
                  mapping := ⟨mapping, pointer, holding.maps, bytes⟩
                  root := ⟨_, rfl, by
                    show t.nextHandle :: t.buffers = [t.nextHandle]
                    rw [holding.bufs]⟩
                  super := ⟨_, superOk.2.1, size, superOk.2.2.1, by
                    show t.fat 0 = (s₀.file 1).toNat * 256 + (s₀.file 0).toNat
                    rw [fat_zero, holding.file]⟩ }
          · next part =>
              cases fetch
              simp only [freeBuffer, Prog.modify_bind] at run
              have short : s₀.outcome 5 ≠ .done ∨ s₀.fileSize < s₀.rootEnd := by
                by_cases answer : s₀.outcome 5 = .done
                · right
                  have some : ¬ (s₀.file 1).toNat * t.gBlockSize + t.gBlockSize ≤ t.fileSize :=
                    fun fits => part ⟨two.trans answer, fits⟩
                  rw [size, holding.fileSize] at some
                  exact Nat.lt_of_not_le some
                · exact .inl answer
              refine holding_giveUp s₀ 6 fd mapping (read done sought short) .internal _ err u ?_ run
              exact { holding.answered.answered.answered with
                bufs := by
                  show (t.nextHandle :: t.buffers).erase t.nextHandle = []
                  simp [holding.bufs] }
      · next lost =>
          have failed : s₀.outcome 4 ≠ .done := fun is => lost (decide_eq_true (one.trans is))
          simp only [Prog.pure_bind_run, freeBuffer, Prog.modify_bind] at run
          refine holding_giveUp s₀ 5 fd mapping (seek done failed) .internal _ err u ?_ run
          exact { holding.answered.answered with
            bufs := by
              show (t.nextHandle :: t.buffers).erase t.nextHandle = []
              simp [holding.bufs] }
  · next full =>
      have failed : s₀.outcome 3 ≠ .done := fun is => full (zero.trans is)
      cases make
      simp only [Prog.modify_bind] at run
      refine holding_giveUp s₀ 4 fd mapping (malloc failed) .outofmem _ err u ?_ run
      exact { holding.answered with }

/-- `k_mount` ends with a volume mounted or with nothing held. -/
theorem kMount_states {fsName : List UInt8} {err : PennFatErr} (detached : Detached s)
    (undo : ∀ i, s.mountUndo fsName = some i → s.outcome i = .done)
    (run : kMount fsName s = some (err, t)) : Attached t ∨ Detached t := by
  unfold kMount at run
  simp only [Prog.get_bind, detached.unmounted, Bool.false_eq_true, ↓reduceIte] at run
  obtain ⟨opened, s₁, first, run⟩ := Prog.bind_inv run
  obtain ⟨image, isImage⟩ : ∃ image, image = s.useImage fsName := ⟨_, rfl⟩
  have holding : Holding image 0 [] [] [] image := by
    subst isImage
    exact ⟨detached.unmounted, detached.closed, fun i => by rw [Nat.zero_add], rfl, rfl, detached.fds,
      detached.maps, detached.bufs⟩
  rw [hostOpen, Prog.bind_of_run (hostOk_eq s)] at first
  by_cases granted : s.outcome 0 = .done ∧ s.opens false fsName = true
  · obtain ⟨opens, there⟩ := granted
    have there' : s.answered.opens false fsName = true := there
    have same : s.answered.useImage fsName = image.answered := by rw [isImage]; rfl
    have base : ∀ i, image.outcome i = s.outcome i := fun i => by rw [isImage]; rfl
    simp only [opens, decide_true, ↓reduceIte, Prog.get_bind, there', same] at first
    cases first
    simp only [Prog.modify_bind] at run
    obtain ⟨super, s₂, fetch, run⟩ := Prog.bind_inv run
    have holding₁ : Holding image 1 [image.nextHandle] [] []
        { image.answered.openImage.1 with gFsFd := some image.nextHandle } :=
      { holding.answered with
        fds := by
          show image.nextHandle :: image.openFds = [image.nextHandle]
          rw [holding.fds] }
    have descriptor : image.answered.openImage.2 = image.nextHandle := rfl
    rw [descriptor] at fetch run
    rw [hostRead_eq] at fetch
    split at fetch
    · next whole =>
        have reads : image.outcome 1 = .done := (holding₁.next 0).symm.trans whole.1
        have long : 2 ≤ image.fileSize := whole.2
        cases fetch
        simp only [Nat.zero_add, Nat.zero_lt_two, Nat.one_lt_two, ↓reduceIte] at run
        split at run
        · exact holding_closeUp image 2 image.nextHandle .invad _ err t holding₁.answered run
        split at run
        · exact holding_closeUp image 2 image.nextHandle .invad _ err t holding₁.answered run
        next configOk countOk =>
        have superOk : image.SuperOk := by
          have config : ¬ 5 ≤ (image.file 0).toNat := configOk
          have count : ¬ ((image.file 1).toNat < 1 ∨ 32 < (image.file 1).toNat) := countOk
          exact ⟨long, by omega, by omega, by omega⟩
        rw [Prog.modify_bind] at run
        obtain ⟨mapped, s₃, map, run⟩ := Prog.bind_inv run
        rw [hostMmap, Prog.bind_of_run (hostOk_eq _)] at map
        split at map
        · next granted =>
            have maps : image.outcome 2 = .done :=
              (holding₁.answered.next 0).symm.trans (of_decide_eq_true granted)
            cases map
            have large := blockSizes_ge (image.file 0).toNat
            have product := Nat.mul_le_mul superOk.2.2.1 large
            simp only [Prog.modify_bind] at run
            rw [superblock_word] at run
            have undo' : ∀ i, (if image.outcome 3 ≠ .done then some 4
                else if image.outcome 4 ≠ .done then some 5
                else if image.outcome 5 ≠ .done ∨ image.fileSize < image.rootEnd then some 6
                else none) = some i → image.outcome i = .done := by
              intro i found
              rw [base] at reads maps ⊢
              apply undo i
              rw [mountUndo, ← isImage, if_pos ⟨opens, there, reads, superOk, maps⟩]
              simp only [base] at found
              exact found
            refine loadRoot_states ?_ rfl ?_ rfl superOk rfl ?_ ?_ ?_ run
            · exact { holding₁.answered.answered with
                maps := congrArg (List.cons _) holding.maps }
            · show 2 ≤ (image.file 1).toNat * blockSizes (image.file 0).toNat
              omega
            · intro failed
              exact undo' 4 (if_pos failed)
            · intro done failed
              exact undo' 5 (by rw [if_neg (not_not.mpr done), if_pos failed])
            · intro done sought short
              exact undo' 6 (by
                rw [if_neg (not_not.mpr done), if_neg (not_not.mpr sought), if_pos short])
        · next refused =>
            cases map
            simp only [Prog.modify_bind] at run
            refine holding_closeUp image 3 image.nextHandle .internal _ err t ?_ run
            exact { holding₁.answered.answered with }
    · cases fetch
      exact holding_closeUp image 2 image.nextHandle .internal _ err t holding₁.answered run
  · have left : Detached s.answered :=
      ⟨detached.unmounted, detached.closed, detached.fds, detached.maps, detached.bufs⟩
    have refused : (opened, s₁) = (none, s.answered) := by
      split at first
      · next opens =>
          have missing : ¬ s.answered.opens false fsName = true :=
            fun there => granted ⟨of_decide_eq_true opens, there⟩
          rw [Prog.get_bind, if_neg missing] at first
          exact (Option.some.inj first).symm
      · exact (Option.some.inj first).symm
    cases refused
    cases run
    exact .inr left

end Mounting

section Formatting

/-- What the process holds is the same. -/
structure SameHeld (s t : Fs) : Prop where
  flag : t.gMounted = s.gMounted
  table : t.gFdTable = s.gFdTable
  fds : t.openFds = s.openFds
  maps : t.mappings = s.mappings
  bufs : t.buffers = s.buffers

instance : Std.Refl SameHeld := ⟨fun _ => ⟨rfl, rfl, rfl, rfl, rfl⟩⟩

instance : IsTrans Fs SameHeld :=
  ⟨fun _ _ _ first second => ⟨second.flag.trans first.flag, second.table.trans first.table,
    second.fds.trans first.fds, second.maps.trans first.maps, second.bufs.trans first.bufs⟩⟩

theorem hostCall_held : Keeps SameHeld hostCall := by
  intro s a t run
  rw [hostCall_eq] at run
  cases run
  exact ⟨rfl, rfl, rfl, rfl, rfl⟩

theorem hostOk_held : Keeps SameHeld hostOk := by
  refine .bind hostCall_held fun outcome => ?_
  cases outcome <;> exact .pure _

theorem hostWrite_held (start len : Nat) (buf : Buffer) :
    Keeps SameHeld (hostWrite start len buf) := by
  unfold hostWrite
  refine .bind hostCall_held fun outcome => ?_
  cases outcome with
  | failed => exact .pure _
  | short count => exact .bind (.modify fun _ => ⟨rfl, rfl, rfl, rfl, rfl⟩) fun _ => .pure _
  | done => exact .bind (.modify fun _ => ⟨rfl, rfl, rfl, rfl, rfl⟩) fun _ => .pure _

theorem formatImage_held (blocksInFat config : Nat) :
    Keeps SameHeld (formatImage blocksInFat config) := by
  unfold formatImage malloc
  refine .bind hostOk_held fun sized => .ite (fun _ => .pure _) fun _ => ?_
  refine .bind (.modify fun _ => ⟨rfl, rfl, rfl, rfl, rfl⟩) fun _ => ?_
  refine .bind hostOk_held fun room => .ite (fun _ => .pure _) fun _ => ?_
  refine .bind hostOk_held fun sought => .ite (fun _ => .pure _) fun _ => ?_
  refine .bind (hostWrite_held _ _ _) fun written => .ite (fun _ => .pure _) fun _ => ?_
  refine .bind hostOk_held fun room => .ite (fun _ => .pure _) fun _ => ?_
  refine .bind hostOk_held fun sought => .ite (fun _ => .pure _) fun _ => ?_
  exact .bind (hostWrite_held _ _ _) fun written => .ite (fun _ => .pure _) fun _ => .pure _

theorem Detached.of_held (detached : Detached s) (same : SameHeld s t) : Detached t where
  unmounted := same.flag.trans detached.unmounted
  closed fd low := by
    rw [same.table]
    exact detached.closed fd low
  fds := same.fds.trans detached.fds
  maps := same.maps.trans detached.maps
  bufs := same.bufs.trans detached.bufs

/-- `k_mkfs` closes what it opens. -/
theorem kMkfs_states {fsName : List UInt8} {blocksInFat config : Int} {err : PennFatErr}
    (detached : Detached s) (run : kMkfs fsName blocksInFat config s = some (err, t)) : Detached t := by
  unfold kMkfs at run
  simp only [Prog.get_bind, detached.unmounted, Bool.false_eq_true, ↓reduceIte, Prog.ite_run] at run
  split at run
  · cases run
    exact detached
  split at run
  · cases run
    exact detached
  obtain ⟨opened, s₁, first, run⟩ := Prog.bind_inv run
  rw [hostOpen, Prog.bind_of_run (hostOk_eq s)] at first
  split at first
  · rw [Prog.get_bind] at first
    split at first
    · cases first
      simp only [Prog.modify_bind] at run
      obtain ⟨result, s₂, format, run⟩ := Prog.bind_inv run
      have same := formatImage_held _ _ _ _ _ format
      simp only [hostClose] at run
      obtain ⟨_, s₃, close, run⟩ := Prog.bind_inv run
      rw [Prog.modify_bind, hostOk_eq] at close
      cases close
      cases run
      exact
        { unmounted := same.flag.trans detached.unmounted
          closed := fun fd low => by
            show (s₂.gFdTable fd).inUse = false
            rw [same.table]
            exact detached.closed fd low
          fds := by
            show s₂.openFds.erase s.nextHandle = []
            rw [same.fds]
            show (s.nextHandle :: s.openFds).erase s.nextHandle = []
            simp [detached.fds]
          maps := same.maps.trans detached.maps
          bufs := same.bufs.trans detached.bufs }
    · cases first
      cases run
      exact detached.of_held ⟨rfl, rfl, rfl, rfl, rfl⟩
  · cases first
    cases run
    exact detached.of_held ⟨rfl, rfl, rfl, rfl, rfl⟩

end Formatting

section Unmounting

theorem Attached.answered (attached : Attached s) : Attached s.answered :=
  ⟨attached.mounted, attached.closed, attached.descriptor, attached.mapping, attached.root,
    attached.super⟩

/-- Bytes past FAT[0] do not matter. -/
theorem Attached.putBytes (attached : Attached s) {start len : Nat} (buf : Buffer)
    (past : 2 ≤ start) : Attached (s.putBytes start len buf) where
  mounted := attached.mounted
  closed := attached.closed
  descriptor := attached.descriptor
  mapping := attached.mapping
  root := attached.root
  super := by
    rw [fat_putBytes s buf (.inl (by omega))]
    exact attached.super

/-- The descriptors are closed already. -/
theorem closeAll_closed (closed : ∀ fd < maxFd, (s.gFdTable fd).inUse = false) (count : Nat)
    {first : Nat} (inside : first + count ≤ maxFd) : closeAll count first s = some ((), s) := by
  induction count generalizing first with
  | zero => rfl
  | succ count ih =>
      have here := closed first (by omega)
      simp only [closeAll, Prog.get_bind, here, Bool.false_eq_true, ↓reduceIte]
      exact ih (by omega)

/-- A write changes the file and uses up one answer. -/
theorem hostWrite_states {start len : Nat} {buf : Buffer} {ok : Bool} (attached : Attached s)
    (past : 2 ≤ start) (run : hostWrite start len buf s = some (ok, t)) :
    Attached t ∧ (∀ i, t.outcome i = s.outcome (1 + i)) ∧ (ok = true → s.outcome 0 = .done) ∧
      t.gFat = s.gFat ∧ t.gFsFd = s.gFsFd ∧ t.buffers = s.buffers := by
  rw [hostWrite, Prog.bind_of_run (hostCall_eq s)] at run
  cases answer : s.outcome 0 with
  | done =>
      rw [answer] at run
      cases run
      exact ⟨attached.answered.putBytes buf past, outcome_answered s, fun _ => rfl, rfl, rfl, rfl⟩
  | failed =>
      rw [answer] at run
      cases run
      exact ⟨attached.answered, outcome_answered s, by simp, rfl, rfl, rfl⟩
  | short count =>
      rw [answer] at run
      cases run
      exact ⟨attached.answered.putBytes buf past, outcome_answered s, by simp, rfl, rfl, rfl⟩

theorem storeRoot_states {fatRegionSize : Nat} {err : PennFatErr} (attached : Attached s)
    (past : 2 ≤ fatRegionSize)
    (flushed : (∀ i < 4, s.outcome i = .done) → s.outcome 4 = .done ∧ s.outcome 5 = .done)
    (run : storeRoot fatRegionSize s = some (err, t)) : Attached t ∨ Detached t := by
  obtain ⟨fd, descriptor, fds⟩ := attached.descriptor
  obtain ⟨mapping, pointer, maps, bytes⟩ := attached.mapping
  obtain ⟨root, copy, bufs⟩ := attached.root
  unfold storeRoot at run
  rw [Prog.get_bind, Prog.bind_of_run (hostOk_eq s)] at run
  simp only [Bool.not_eq_true', decide_eq_false_iff_not, copy, pointer, descriptor] at run
  split at run
  · cases run
    exact .inl attached.answered
  next sought =>
  obtain ⟨written, s₁, write, run⟩ := Prog.bind_inv run
  obtain ⟨attached₁, next₁, done₁, fat₁, fd₁, bufs₁⟩ :=
    hostWrite_states attached.answered past write
  split at run
  · cases run
    exact .inl attached₁
  next stored =>
  rw [Prog.bind_of_run (hostOk_eq s₁)] at run
  simp only [decide_eq_false_iff_not] at run
  split at run
  · cases run
    exact .inl attached₁.answered
  next synced =>
  rw [hostMunmap] at run
  obtain ⟨unmapped, s₂, unmap, run⟩ := Prog.bind_inv run
  rw [Prog.bind_of_run (hostOk_eq s₁.answered)] at unmap
  split at unmap
  · next released =>
      cases unmap
      have shift : ∀ i, s₁.outcome i = s.outcome (2 + i) := fun i => by
        rw [next₁, outcome_answered, ← Nat.add_assoc]
      have early : ∀ i < 4, s.outcome i = .done := by
        intro i low
        have cases_ : i = 0 ∨ i = 1 ∨ i = 2 ∨ i = 3 := by omega
        rcases cases_ with rfl | rfl | rfl | rfl
        · exact not_not.mp sought
        · exact (outcome_answered s 0).symm.trans (done₁ (by simpa using stored))
        · exact (shift 0).symm.trans (not_not.mp synced)
        · exact (shift 1).symm.trans
            ((outcome_answered s₁ 0).symm.trans (of_decide_eq_true released))
      obtain ⟨flush, close⟩ := flushed early
      have fifth : s₁.answered.answered.outcome 0 = .done := by
        rw [outcome_answered, outcome_answered, shift]
        exact flush
      have sixth : s₁.answered.answered.answered.outcome 0 = .done := by
        rw [outcome_answered, outcome_answered, outcome_answered, shift]
        exact close
      simp only [freeBuffer, Bool.true_eq_false, ↓reduceIte, Prog.modify_bind] at run
      obtain ⟨_, s₃, sync, run⟩ := Prog.bind_inv run
      rw [hostOk_eq] at sync
      cases sync
      split at run
      · next unsynced => exact absurd fifth (of_decide_eq_false unsynced)
      obtain ⟨_, s₄, shut, run⟩ := Prog.bind_inv run
      rw [hostClose, Prog.modify_bind, hostOk_eq] at shut
      cases shut
      split at run
      · next unclosed => exact absurd sixth (of_decide_eq_false unclosed)
      cases run
      right
      have fds₁ : s₁.openFds = [fd] := by
        obtain ⟨other, same, only⟩ := attached₁.descriptor
        rw [fd₁] at same
        rw [only, Option.some.inj (descriptor.symm.trans same)]
      have maps₁ : s₁.mappings = [mapping] := by
        obtain ⟨other, same, only, _⟩ := attached₁.mapping
        rw [fat₁] at same
        rw [only, Option.some.inj (pointer.symm.trans same)]
      exact
        { unmounted := rfl
          closed := attached₁.closed
          fds := by
            show s₁.openFds.erase fd = []
            simp [fds₁]
          maps := by
            show s₁.mappings.erase mapping = []
            simp [maps₁]
          bufs := by
            show s₁.buffers.erase root.handle = []
            have same : s₁.buffers = [root.handle] := bufs₁.trans bufs
            simp [same] }
  · cases unmap
    cases run
    exact .inl attached₁.answered.answered

/-- `k_unmount` leaves the volume mounted or gives everything back. -/
theorem kUnmount_states {err : PennFatErr} (attached : Attached s)
    (flushed : (∀ i < 4, s.outcome i = .done) → s.outcome 4 = .done ∧ s.outcome 5 = .done)
    (run : kUnmount s = some (err, t)) : Attached t ∨ Detached t := by
  obtain ⟨mapping, pointer, maps, bytes⟩ := attached.mapping
  obtain ⟨config, small, size, positive, super⟩ := attached.super
  have mapped : s.fatMapped 0 = true := by
    simp only [fatMapped, pointer, maps, List.contains_cons, beq_self_eq_true, Bool.true_or,
      Bool.true_and, decide_eq_true_eq]
    omega
  have get : fatGet 0 s = some (s.fat 0, s) := by simp only [fatGet, mapped, ↓reduceIte]
  unfold kUnmount at run
  simp only [Prog.get_bind, attached.mounted, Bool.not_true, Bool.false_eq_true, ↓reduceIte] at run
  rw [Prog.bind_of_run get, Prog.bind_of_run (closeAll_closed attached.closed maxFd (by omega))] at run
  refine storeRoot_states attached ?_ flushed run
  have blocks : 1 ≤ s.fat 0 / 256 % 256 := by
    have bound := fat_lt s 0
    omega
  have large := blockSizes_ge config
  have product := Nat.mul_le_mul blocks large
  rw [size]
  omega

end Unmounting

section Runs

theorem Attached.consistent (attached : Attached s) : s.MountConsistent := by
  obtain ⟨fd, descriptor, fds⟩ := attached.descriptor
  obtain ⟨mapping, pointer, maps, _⟩ := attached.mapping
  obtain ⟨root, copy, bufs⟩ := attached.root
  obtain ⟨config, small, size, positive, super⟩ := attached.super
  exact
    { mapped := fun _ => ⟨mapping, by rw [maps]; exact List.mem_cons_self, pointer⟩
      root := fun _ => ⟨root, copy, by rw [bufs]; exact List.mem_cons_self⟩
      descriptor := fun _ => ⟨fd, by rw [fds]; exact List.mem_cons_self, descriptor⟩
      blockSize := fun _ => by
        have low : s.fat 0 % 256 = config := by omega
        rw [low, size]
      superblock := fun _ => by omega
      released := fun unmounted => by
        rw [attached.mounted] at unmounted
        cases unmounted }

theorem Detached.consistent (detached : Detached s) : s.MountConsistent where
  mapped mounted := by rw [detached.unmounted] at mounted; cases mounted
  root mounted := by rw [detached.unmounted] at mounted; cases mounted
  descriptor mounted := by rw [detached.unmounted] at mounted; cases mounted
  blockSize mounted := by rw [detached.unmounted] at mounted; cases mounted
  superblock mounted := by rw [detached.unmounted] at mounted; cases mounted
  released _ := ⟨detached.fds, detached.maps, detached.bufs⟩

/-- One mounting call leads from a consistent state to a consistent state. -/
theorem mount_step {call : Call} (states : Attached s ∨ Detached s) (releases : ReleasesDone s call)
    (step : Step s call t) : Attached t ∨ Detached t := by
  cases call with
  | mkfs fsName blocksInFat config =>
      obtain ⟨err, run⟩ := ignore_inv step
      rcases states with attached | detached
      · simp only [kMkfs, Prog.get_bind, attached.mounted, ↓reduceIte, Prog.pure_run] at run
        cases run
        exact .inl attached
      · exact .inr (kMkfs_states detached run)
  | mount fsName =>
      obtain ⟨err, run⟩ := ignore_inv step
      rcases states with attached | detached
      · simp only [kMount, Prog.get_bind, attached.mounted, ↓reduceIte, Prog.pure_run] at run
        cases run
        exact .inl attached
      · exact kMount_states detached (releases detached.unmounted) run
  | unmount =>
      obtain ⟨err, run⟩ := ignore_inv step
      rcases states with attached | detached
      · exact kUnmount_states attached (releases attached.mounted) run
      · simp only [kUnmount, Prog.get_bind, detached.unmounted, Bool.not_false, ↓reduceIte,
          Prog.pure_run] at run
        cases run
        exact .inr detached
  | _ => exact releases.elim

/-- In every run of mounting calls in which no release fails, the flag keeps its promise. -/
theorem mount_consistent (hostFiles : List UInt8 → Option HostFile) (host : List HostOutcome) (t : Fs)
    (run : Run ReleasesDone (Fs.loaded hostFiles host) t) : t.MountConsistent := by
  have start : Attached (Fs.loaded hostFiles host) ∨ Detached (Fs.loaded hostFiles host) :=
    .inr ⟨rfl, fun _ _ => rfl, rfl, rfl, rfl⟩
  have states : Attached t ∨ Detached t :=
    run.keeps start fun _ _ _ before releases step => mount_step before releases step
  rcases states with attached | detached
  · exact attached.consistent
  · exact detached.consistent

end Runs

section Example

/-- A volume is made, mounted and unmounted. -/
def mountCycle : List Call := [.mkfs imageA 1 0, .mount imageA, .unmount]

/-- A host whose `read` of the root directory fails in `k_mount`. -/
def failingRead : Fs := Fs.loaded (fun _ => none) (List.replicate 14 .done ++ [.failed])

theorem mount_consistent_mountCycle : ((runCalls mountCycle).after failingRead).MountConsistent := by
  have ends : (runCalls mountCycle failingRead).isSome = true := by decide +kernel
  have sound : SoundCalls ReleasesDone failingRead mountCycle := by
    refine ⟨trivial, ?_, ?_, trivial⟩
    · intro _ i found
      have undo : ((Call.mkfs imageA 1 0).exec.after failingRead).mountUndo imageA.bytes = some 6 := by
        decide +kernel
      rw [undo] at found
      cases found
      decide +kernel
    · intro mounted
      have failed : ((Call.mount imageA).exec.after
          ((Call.mkfs imageA 1 0).exec.after failingRead)).gMounted = false := by
        decide +kernel
      rw [failed] at mounted
      cases mounted
  exact mount_consistent _ _ _ (.of_calls (runCalls_after ends) sound)

/-- A host whose `fsync` fails in `k_unmount`. -/
def failingFsync : List HostOutcome := List.replicate 19 .done ++ [.failed]

/-- The flag stays up although the FAT is unmapped. -/
theorem unmount_failure_inconsistent :
    ¬ ∀ (hostFiles : List UInt8 → Option HostFile) (host : List HostOutcome) (t : Fs),
      Run (fun _ call => (∃ fsName, call = .mount fsName) ∨ call = .unmount ∨
          ∃ fsName blocks config, call = .mkfs fsName blocks config)
        (Fs.loaded hostFiles host) t → t.MountConsistent := by
  intro consistent
  have ends : (runCalls mountCycle (Fs.loaded (fun _ => none) failingFsync)).isSome = true := by
    decide +kernel
  have kept := consistent (fun _ => none) failingFsync _ (.of_calls (runCalls_after ends)
    ⟨.inr (.inr ⟨imageA, 1, 0, rfl⟩), .inl ⟨imageA, rfl⟩, .inr (.inl rfl), trivial⟩)
  obtain ⟨mapping, member, _⟩ := kept.mapped (by decide +kernel)
  have none : ((runCalls mountCycle).after (Fs.loaded (fun _ => none) failingFsync)).mappings = [] := by
    decide +kernel
  rw [none] at member
  cases member

end Example

end PennOs.Fat
