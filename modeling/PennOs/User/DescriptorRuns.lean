import PennOs.User.Redirections

set_option autoImplicit false

/- `k_open` and `k_close` of PennFAT do to the descriptors what `s_open` and `s_close` of the shell's
model do. -/
namespace PennOs.User

open PennOs.Fat

variable {s t : Fs} {fds : Descriptors} {fd : Nat} {now : UInt64} {mode : UInt32} {path : List UInt8}

/-- The descriptors in use. -/
def descriptors (s : Fs) : Descriptors :=
  (Finset.range maxFd).filter fun fd => (s.gFdTable fd).inUse = true

theorem mem_descriptors : fd ∈ descriptors s ↔ fd < maxFd ∧ (s.gFdTable fd).inUse = true := by
  rw [descriptors, Finset.mem_filter, Finset.mem_range]

/-- The two searches for a descriptor agree. -/
theorem freeFd_eq (s : Fs) : s.freeFd = lowestFree (descriptors s) := by
  have same : ∀ fd < maxFd, (!(s.gFdTable fd).inUse) = decide (fd ∉ descriptors s) := by
    intro fd low
    simp [mem_descriptors, low]
  cases found : lowestFree (descriptors s) with
  | none =>
      rw [lowestFree, Search.firstFrom_none] at found
      rw [Fs.freeFd, Search.firstFrom_none]
      intro fd low high
      rw [same fd (by omega)]
      exact found fd low high
  | some fd =>
      obtain ⟨low, high, free, before⟩ := Search.firstFrom_some found
      rw [Fs.freeFd]
      apply Search.firstFrom_eq_some low high
      · rw [same fd (by omega)]
        exact free
      · intro i lower below
        rw [same i (by omega)]
        exact before i lower below

/-- The table of descriptors is left alone. -/
def SameFds (s t : Fs) : Prop := t.gFdTable = s.gFdTable

instance : Std.Refl SameFds := ⟨fun _ => rfl⟩

instance : IsTrans Fs SameFds := ⟨fun _ _ _ first second => Eq.trans second first⟩

theorem keepsFds {α : Type} {p : FsM α} (keeps : Prog.Keeps SameTables p) : Prog.Keeps SameFds p :=
  fun s a s' run => (keeps s a s' run).descriptors

theorem findAndIncrementSysfile_fds (inode : Nat) :
    Prog.Keeps SameFds (findAndIncrementSysfile inode) := by
  refine .bind .get fun s => ?_
  split
  · exact .pure _
  · exact .bind (.modify fun _ => rfl) fun _ => .pure _

theorem createSysfileEntry_fds (resolved : ResolvedPath) (inode : Nat) :
    Prog.Keeps SameFds (createSysfileEntryFromResolved resolved inode) := by
  refine .bind .get fun s => ?_
  split
  · exact .pure _
  · exact .bind (.modify fun _ => rfl) fun _ => .pure _

theorem releaseSysfileEntry_fds (index : Nat) : Prog.Keeps SameFds (releaseSysfileEntry index) := by
  refine .bind .get fun s => .ite (fun _ => .pure _) fun _ => ?_
  refine .bind (.modify fun _ => rfl) fun _ => .ite (fun _ => ?_) fun _ => .pure _
  exact .bind (keepsFds (flushSysfile_tables _)) fun _ => .modify fun _ => rfl

/-- The call did to the descriptors what an `s_open` with its result does. -/
def Takes (fds : Descriptors) (result : Except PennFatErr Nat) (t : Fs) : Prop :=
  ∃ opens, sOpen opens fds = some (result.toOption, descriptors t)

theorem takes_error {err : PennFatErr} (same : descriptors t = fds) : Takes fds (.error err) t := by
  refine ⟨false, ?_⟩
  rw [same]
  rfl

theorem pure_takes (err : PennFatErr) :
    Prog.Hoare (fun s => descriptors s = fds) (pure (Except.error err)) (Takes fds) :=
  .pure fun _ same => takes_error same

theorem keeps_descriptors {α : Type} {p : FsM α} (keeps : Prog.Keeps SameFds p) :
    Prog.Hoare (fun s => descriptors s = fds) p fun _ s => descriptors s = fds := by
  refine .of_keeps keeps fun s s' _ before same => ?_
  rw [descriptors, same]
  exact before

theorem assignFd_takes (index : Nat) (size : UInt32) :
    Prog.Hoare (fun s => descriptors s = fds) (assignFd index mode size) (Takes fds) := by
  refine .get fun s => ?_
  cases found : s.freeFd with
  | none =>
      refine .seq (fun _ t => descriptors t = fds) ?_ fun _ => pure_takes _
      exact (keeps_descriptors (releaseSysfileEntry_fds index)).mono (fun _ start => start.2)
        fun _ _ same => same
  | some fd =>
      refine .seq (fun _ t => sOpen true fds = some (some fd, descriptors t)) (.modify ?_) fun _ =>
        .pure fun _ taken => ⟨true, taken⟩
      rintro t ⟨rfl, rfl⟩
      rw [freeFd_eq] at found
      obtain ⟨low, -, -⟩ := lowestFree_some found
      have taken : sOpen true (descriptors t) = some (some fd, insert fd (descriptors t)) := by
        simp [sOpen, found]
      rw [taken]
      congr 2
      ext x
      rw [Finset.mem_insert, mem_descriptors, mem_descriptors]
      by_cases same : x = fd
      · simp [same, low, Fs.setFd]
      · simp [same, Fs.setFd]

theorem openExisting_takes (resolved : ResolvedPath) :
    Prog.Hoare (fun s => descriptors s = fds) (openExisting now mode resolved) (Takes fds) := by
  rw [openExisting_eq]
  refine .ite (fun _ => pure_takes _) fun _ => .ite (fun _ => pure_takes _) fun _ => ?_
  refine .bind (keeps_descriptors (keepsFds (openedEntry_tables mode resolved))) fun current => ?_
  cases current with
  | error err => exact pure_takes _
  | ok current =>
      refine .bind (keeps_descriptors (findAndIncrementSysfile_fds _)) fun found => ?_
      cases found with
      | some index => exact assignFd_takes index _
      | none =>
          refine .bind (keeps_descriptors (createSysfileEntry_fds _ _)) fun made => ?_
          cases made with
          | none => exact pure_takes _
          | some index => exact assignFd_takes index _

theorem openCreate_takes (resolved : ResolvedPath) :
    Prog.Hoare (fun s => descriptors s = fds) (openCreate now path mode resolved) (Takes fds) := by
  unfold openCreate
  refine .ite (fun _ => pure_takes _) fun _ => .ite (fun _ => pure_takes _) fun _ => ?_
  refine .ite (fun _ => pure_takes _) fun _ => ?_
  refine .bind (keeps_descriptors (keepsFds allocateFreeBlock_tables)) fun taken => ?_
  cases taken with
  | none => exact pure_takes _
  | some firstBlock =>
      refine .bind (keeps_descriptors (keepsFds (addDirentToDir_tables _ _))) fun added => ?_
      split
      · refine .bind (keeps_descriptors (keepsFds (resolvePath_tables _))) fun created => ?_
        refine .ite (fun _ => ?_) fun _ => .ite (fun _ => pure_takes _) fun _ => pure_takes _
        refine .bind (keeps_descriptors (createSysfileEntry_fds _ _)) fun made => ?_
        cases made with
        | some index => exact assignFd_takes index _
        | none =>
            exact .bind (keeps_descriptors (keepsFds (writeDirent_tables _ _ _))) fun _ =>
              .bind (keeps_descriptors (keepsFds (freeBlockChain_tables _))) fun _ => pure_takes _
      · exact .bind (keeps_descriptors (keepsFds (fatSet_tables _ _))) fun _ => pure_takes _

/-- Every run of `k_open` is an `s_open` of the shell's model. -/
theorem kOpen_takes {result : Except PennFatErr Nat}
    (run : kOpen now path mode s = some (result, t)) :
    ∃ opens, sOpen opens (descriptors s) = some (result.toOption, descriptors t) := by
  have takes : Prog.Hoare (fun u => descriptors u = descriptors s) (kOpen now path mode)
      (Takes (descriptors s)) := by
    unfold kOpen
    refine .get fun u => ?_
    suffices rest : Prog.Hoare (fun u => descriptors u = descriptors s) _ (Takes (descriptors s)) from
      rest.mono (fun _ start => start.2) fun _ _ taken => taken
    refine .ite (fun _ => pure_takes _) fun _ => .ite (fun _ => pure_takes _) fun _ => ?_
    refine .ite (fun _ => pure_takes _) fun _ => ?_
    refine .bind (keeps_descriptors (keepsFds (resolvePath_tables _))) fun found => ?_
    refine .ite (fun _ => pure_takes _) fun _ => ?_
    exact .ite (fun _ => openExisting_takes found.2) fun _ => openCreate_takes found.2
  exact takes s result t rfl run

/-- Every run of `k_close` on a mounted image is an `s_close` of the shell's model. -/
theorem kClose_closes {fd : Int} {err : PennFatErr} (mounted : s.gMounted = true)
    (run : kClose fd s = some (err, t)) : sClose fd (descriptors s) = some ((), descriptors t) := by
  rw [kClose, Prog.get_bind] at run
  simp only [mounted, Bool.not_true, Bool.false_eq_true, ↓reduceIte] at run
  by_cases valid : s.validFd fd = true
  · simp only [valid, Bool.not_true, Bool.false_eq_true, ↓reduceIte, Prog.modify_bind] at run
    obtain ⟨_, u, released, run⟩ := Prog.bind_inv run
    have same := releaseSysfileEntry_fds _ _ _ _ released
    cases run
    simp only [Fs.validFd, Bool.and_eq_true, decide_eq_true_eq] at valid
    rw [sClose, Prog.modify_run, if_pos valid.1.1]
    congr 2
    ext x
    rw [Finset.mem_erase, mem_descriptors, mem_descriptors, same]
    by_cases closed : x = fd.toNat
    · simp [closed, Fs.setFd]
    · simp [closed, Fs.setFd]
  · simp only [valid, Bool.not_false, ↓reduceIte] at run
    cases run
    rw [sClose, Prog.modify_run]
    split
    · next low =>
        have absent : fd.toNat ∉ descriptors s := by
          intro member
          obtain ⟨high, inUse⟩ := mem_descriptors.mp member
          apply valid
          simp only [Fs.validFd, Bool.and_eq_true, decide_eq_true_eq]
          exact ⟨⟨low, by omega⟩, inUse⟩
        rw [Finset.erase_eq_of_notMem absent]
    · rfl

end PennOs.User
