import PennOs.Fat.ReadOnly

set_option autoImplicit false

/- Lookups and the host: one that succeeds finds what it finds when the host carries out every
call. -/
namespace PennOs.Fat

open Prog (Settles)
open Fs

/-- The host carries out every call from now on. -/
def Fs.calm (s : Fs) : Fs := { s with host := [] }

/-- The host carries out the next `count` calls. -/
def Fs.Carries (s : Fs) (count : Nat) : Prop := ∀ outcome ∈ s.host.take count, outcome = .done

def Fs.skip (s : Fs) (count : Nat) : Fs := { s with host := s.host.drop count }

/-- A result other than an error. -/
def Succeeds {α : Type} (result : Except PennFatErr α) : Prop := ∃ a, result = .ok a

variable {s t : Fs} {follow : Bool} {now : UInt64}
  {recurse : List UInt8 → FsM (PennFatErr × ResolvedPath)}

theorem calm_of_host (host : s.host = []) : s.calm = s := by
  rw [calm, ← host]

section Settling

theorem hostOk_settles : Settles calm (· = true) hostOk := by
  intro s a t run good
  subst good
  have same := (hostOk_host s true t run).same
  rw [hostOk_run (s := s.calm) rfl]
  rw [same]
  rfl

theorem fatGet_settles (index : Nat) : Settles calm (fun _ => True) (fatGet index) := by
  intro s a t run _
  have mapped : s.calm.fatMapped index = s.fatMapped index := rfl
  unfold fatGet at run ⊢
  rw [mapped]
  split at run
  · next inside =>
      cases run
      rw [if_pos inside]
      rfl
  · cases run

theorem readBlock_settles (b : Nat) : Settles calm (· ≠ none) (readBlock b) := by
  unfold readBlock
  have stops : ∀ (a : Bool) (rest : FsM (Option Buffer)) (s : Fs), ¬ a = true → ∀ buf t,
      (if (!a) = true then pure none else rest) s = some (buf, t) → ¬ buf ≠ none := by
    intro a rest s bad buf t run
    rw [if_pos (by simpa using bad)] at run
    cases run
    exact fun other => other rfl
  refine .get (fun _ => rfl) fun s => .ite (fun _ => .pure _) fun _ => ?_
  refine .bind hostOk_settles (fun _ _ => .ite (fun _ => .pure _) fun _ => ?_) fun _ a t _ => stops a _ t
  refine .bind hostOk_settles (fun _ _ => .ite (fun _ => .pure _) fun _ => ?_) fun _ a t _ => stops a _ t
  exact .get (fun _ => rfl) fun t => .ite (fun _ => .pure _) fun _ => .pure _

/-- An error is passed on. -/
theorem fails_error {α : Type} {err : PennFatErr} {res : Except PennFatErr α}
    (run : (pure (.error err) : FsM (Except PennFatErr α)) s = some (res, t)) : ¬ Succeeds res := by
  cases run
  rintro ⟨a, same⟩
  cases same

theorem findLoop_settles (name : List UInt8) (fuel current : Nat) :
    Settles calm Succeeds (findLoop name fuel current) := by
  induction fuel generalizing current with
  | zero => exact .fault
  | succ fuel ih =>
      unfold findLoop
      refine .ite (fun _ => .pure _) fun _ => .bind (readBlock_settles current) (fun read good => ?_) ?_
      · cases read with
        | none => exact absurd rfl good
        | some buf =>
            refine .get (fun _ => rfl) fun s => ?_
            split
            · exact .pure _
            · exact .bind (fatGet_settles current) (fun next _ => ih next)
                fun _ _ _ _ no => absurd trivial no
      · intro s read t _ bad res u run
        obtain rfl : read = none := by simpa using bad
        exact fails_error run

theorem findEntryInDir_settles (d : Nat) (name : List UInt8) :
    Settles calm Succeeds (findEntryInDir d name) := by
  unfold findEntryInDir
  refine .ite (fun _ => .pure _) fun _ => .bind hostOk_settles (fun _ _ => ?_) ?_
  · refine .ite (fun _ => .pure _) fun _ => .bind (findLoop_settles name _ d) (fun found good => ?_) ?_
    · rcases found with err | _ | hit <;> exact .pure _
    · intro s found t _ bad res u run
      cases found with
      | error err => exact fails_error run
      | ok hit => exact absurd ⟨hit, rfl⟩ bad
  · intro s room t _ bad res u run
    rw [if_pos (by simpa using bad)] at run
    exact fails_error run

theorem readSymlinkTarget_settles (link : DirEntry) : Settles calm Succeeds (readSymlinkTarget link) := by
  unfold readSymlinkTarget
  refine .ite (fun _ => .pure _) fun _ => .bind hostOk_settles (fun _ _ => ?_) ?_
  · refine .ite (fun _ => .pure _) fun _ => .bind (readBlock_settles _) (fun read good => ?_) ?_
    · cases read <;> exact .pure _
    · intro s read t _ bad res u run
      obtain rfl : read = none := by simpa using bad
      exact fails_error run
  · intro s room t _ bad res u run
    rw [if_pos (by simpa using bad)] at run
    exact fails_error run

/-- No error is called OK. -/
def ErrorsNamed {α : Type} (p : FsM (Except PennFatErr α)) : Prop :=
  ∀ s err t, p s = some (.error err, t) → err ≠ .ok

theorem findLoop_named (name : List UInt8) (fuel current : Nat) :
    ErrorsNamed (findLoop name fuel current) := by
  intro s err t run
  induction fuel generalizing s current with
  | zero => cases run
  | succ fuel ih =>
      unfold findLoop at run
      split at run
      · cases run
      obtain ⟨read, u, _, run⟩ := Prog.bind_inv run
      cases read with
      | none =>
          cases run
          decide
      | some buf =>
          simp only [Prog.get_bind] at run
          cases scan : scanBlock buf name u.entriesPerBlock 0 with
          | some index =>
              rw [scan] at run
              cases run
          | none =>
              rw [scan] at run
              obtain ⟨next, v, _, run⟩ := Prog.bind_inv run
              exact ih next v run

theorem findEntryInDir_named (d : Nat) (name : List UInt8) : ErrorsNamed (findEntryInDir d name) := by
  intro s err t run
  unfold findEntryInDir at run
  split at run
  · cases run
    decide
  obtain ⟨room, u, _, run⟩ := Prog.bind_inv run
  split at run
  · cases run
    decide
  obtain ⟨found, v, loop, run⟩ := Prog.bind_inv run
  rcases found with other | _ | hit
  · cases run
    exact findLoop_named name _ d u err _ loop
  · cases run
  · cases run

theorem readSymlinkTarget_named (link : DirEntry) : ErrorsNamed (readSymlinkTarget link) := by
  intro s err t run
  unfold readSymlinkTarget at run
  split at run
  · cases run
    decide
  obtain ⟨room, u, _, run⟩ := Prog.bind_inv run
  split at run
  · cases run
    decide
  obtain ⟨read, v, _, run⟩ := Prog.bind_inv run
  cases read with
  | none =>
      cases run
      decide
  | some buf => cases run

/-- An error on the way is what `resolve_path` returns. -/
theorem Settles.resolving {α : Type} {p : FsM (Except PennFatErr α)}
    {f : Except PennFatErr α → FsM (PennFatErr × ResolvedPath)} (settles : Settles calm Succeeds p)
    (named : ErrorsNamed p) (passed : ∀ err, f (.error err) = pure (err, .zero))
    (rest : ∀ a, Settles calm (·.1 = .ok) (f (.ok a))) : Settles calm (·.1 = .ok) (p >>= f) := by
  refine .bind settles ?_ ?_
  · rintro _ ⟨a, rfl⟩
    exact rest a
  · intro s result t run bad res u last
    cases result with
    | error err =>
        rw [passed err] at last
        cases last
        exact named s err t run
    | ok a => exact absurd ⟨a, rfl⟩ bad

theorem walk_settles (follows : ∀ target, Settles calm (·.1 = .ok) (recurse target))
    (components : List (List UInt8)) (current parent : Nat) :
    Settles calm (·.1 = .ok) (walk now follow recurse components current parent) := by
  induction components generalizing current parent with
  | nil => exact .pure _
  | cons component rest ih =>
      unfold walk
      refine .ite (fun _ => ih current parent) fun _ => .ite (fun _ => ?_) fun _ => ?_
      · refine .ite (fun _ => ih current parent) fun _ => ?_
        refine Settles.resolving (findEntryInDir_settles current dotDot)
          (findEntryInDir_named current dotDot) (fun _ => rfl) fun up => ?_
        exact .ite (fun _ => .pure _) fun _ => ih _ current
      · refine Settles.resolving (findEntryInDir_settles current component)
          (findEntryInDir_named current component) (fun _ => rfl) fun hit =>
            .ite (fun _ => .pure _) fun _ => ?_
        cases rest with
        | nil =>
            refine .ite (fun _ => ?_) fun _ => .pure _
            exact Settles.resolving (readSymlinkTarget_settles _) (readSymlinkTarget_named _)
              (fun _ => rfl) follows
        | cons next rest => exact .ite (fun _ => .pure _) fun _ => ih _ current

theorem resolvePathInternal_settles (levels : Nat) (path : List UInt8) :
    Settles calm (·.1 = .ok) (resolvePathInternal now follow levels path) := by
  induction levels generalizing path with
  | zero => exact .pure _
  | succ levels ih =>
      cases path with
      | nil =>
          unfold resolvePathInternal
          exact .get (fun _ => rfl) fun s => .ite (fun _ => .pure _) fun _ => .pure _
      | cons c rest =>
          unfold resolvePathInternal
          refine .get (fun _ => rfl) fun s => .ite (fun _ => ?_) fun _ => walk_settles ih _ _ _
          exact .ite (fun _ => .pure _) fun _ => walk_settles ih _ _ _

theorem resolvePath_settles (path : List UInt8) : Settles calm (·.1 = .ok) (resolvePath now path) := by
  unfold resolvePath
  exact .ite (fun _ => .pure _) fun _ => resolvePathInternal_settles symlinkLevels path

end Settling

section Calls

variable {b : Nat} {buf : Buffer}

@[simp] theorem skip_fdOpen (s : Fs) (count : Nat) : (s.skip count).fdOpen = s.fdOpen := rfl

@[simp] theorem skip_gFsFd (s : Fs) (count : Nat) : (s.skip count).gFsFd = s.gFsFd := rfl

theorem skip_skip (s : Fs) (first second : Nat) : (s.skip first).skip second = s.skip (first + second) := by
  simp only [skip, List.drop_drop]

theorem carries_add {first second : Nat} :
    s.Carries (first + second) ↔ s.Carries first ∧ (s.skip first).Carries second := by
  simp only [Carries, skip, List.take_add, List.mem_append]
  constructor
  · intro all
    exact ⟨fun outcome member => all outcome (.inl member), fun outcome member => all outcome (.inr member)⟩
  · rintro ⟨front, back⟩ outcome (member | member)
    · exact front outcome member
    · exact back outcome member

theorem hostCall_done_iff : hostCall s = some (.done, t) ↔ s.Carries 1 ∧ t = s.skip 1 := by
  unfold hostCall Carries skip
  cases host : s.host with
  | nil =>
      have same : { s with host := [] } = s := by rw [← host]
      simp only [List.take_nil, List.not_mem_nil, IsEmpty.forall_iff, implies_true, List.drop_nil, same,
        Option.some.injEq, Prod.mk.injEq, true_and]
      exact eq_comm
  | cons outcome rest =>
      simp only [Option.some.injEq, Prod.mk.injEq, List.take_succ_cons, List.take_zero, List.mem_singleton,
        forall_eq, List.drop_succ_cons, List.drop_zero]
      exact and_congr_right fun _ => eq_comm

theorem hostOk_true_iff : hostOk s = some (true, t) ↔ s.Carries 1 ∧ t = s.skip 1 := by
  rw [← hostCall_done_iff, hostOk, Prog.bind_some_iff]
  constructor
  · rintro ⟨outcome, u, run, last⟩
    cases outcome with
    | done =>
        cases last
        exact run
    | failed => cases last
    | short count => cases last
  · exact fun run => ⟨.done, t, run, rfl⟩

variable (opened : s.fdOpen = true)

include opened

theorem gFsFd_of_open : s.gFsFd ≠ none := by
  intro closed
  simp [fdOpen, closed] at opened

theorem readBlock_some_iff : readBlock b s = some (some buf, t) ↔
    s.Carries 2 ∧ s.blockOffset b + s.gBlockSize ≤ s.fileSize ∧ buf = s.block b ∧ t = s.skip 2 := by
  unfold readBlock
  rw [Prog.get_bind, if_neg (gFsFd_of_open opened)]
  constructor
  · intro run
    obtain ⟨sought, u, first, run⟩ := Prog.bind_inv run
    cases sought with
    | false => cases run
    | true =>
        obtain ⟨carried, rfl⟩ := (hostOk_true_iff).mp first
        obtain ⟨got, v, second, run⟩ := Prog.bind_inv run
        cases got with
        | false => cases run
        | true =>
            obtain ⟨carried', rfl⟩ := (hostOk_true_iff).mp second
            rw [if_neg (by decide)] at run
            split at run
            · next stored =>
                cases run
                exact ⟨(carries_add).mpr ⟨carried, carried'⟩, stored.2, rfl, skip_skip s 1 1⟩
            · cases run
  · rintro ⟨carried, stored, rfl, rfl⟩
    obtain ⟨first, second⟩ := (carries_add).mp (show s.Carries (1 + 1) from carried)
    rw [Prog.bind_of_run ((hostOk_true_iff).mpr ⟨first, rfl⟩), if_neg (by decide),
      Prog.bind_of_run ((hostOk_true_iff).mpr ⟨second, rfl⟩), if_neg (by decide), skip_skip]
    exact if_pos (⟨opened, stored⟩ : s.fdOpen = true ∧ s.blockOffset b + s.gBlockSize ≤ s.fileSize) ▸ rfl

theorem writeBlock_true_iff : writeBlock buf b s = some (true, t) ↔
    s.Carries 3 ∧ t = (s.skip 3).putBlock b buf := by
  unfold writeBlock
  rw [Prog.get_bind, if_neg (gFsFd_of_open opened)]
  constructor
  · intro run
    obtain ⟨sought, u, first, run⟩ := Prog.bind_inv run
    cases sought with
    | false => cases run
    | true =>
        obtain ⟨carried, rfl⟩ := (hostOk_true_iff).mp first
        obtain ⟨outcome, v, second, run⟩ := Prog.bind_inv run
        cases outcome with
        | failed => cases run
        | short count =>
            dsimp only at run
            split at run <;> cases run
        | done =>
            obtain ⟨carried', rfl⟩ := (hostCall_done_iff).mp second
            replace run : hostOk (((s.skip 1).skip 1).putBlock b buf) = some (true, t) := by
              rw [← run]
              show _ = (if (!s.fdOpen) = true then pure false else _ : FsM Bool) ((s.skip 1).skip 1)
              rw [opened]
              rfl
            obtain ⟨carried'', rfl⟩ := (hostOk_true_iff).mp run
            have third : ((s.skip 1).skip 1).Carries 1 := carried''
            rw [skip_skip] at third
            refine ⟨(carries_add).mpr ⟨(carries_add).mpr ⟨carried, carried'⟩, third⟩, ?_⟩
            show (((s.skip 1).skip 1).skip 1).putBlock b buf = _
            rw [skip_skip, skip_skip]
  · rintro ⟨carried, rfl⟩
    obtain ⟨front, third⟩ := (carries_add).mp (show s.Carries (2 + 1) from carried)
    obtain ⟨first, second⟩ := (carries_add).mp (show s.Carries (1 + 1) from front)
    rw [Prog.bind_of_run ((hostOk_true_iff).mpr ⟨first, rfl⟩), if_neg (by decide),
      Prog.bind_of_run ((hostCall_done_iff).mpr ⟨second, rfl⟩)]
    simp only [opened, Bool.not_true, Bool.false_eq_true, ↓reduceIte, Prog.modify_bind]
    rw [skip_skip]
    have last : (s.skip 3).putBlock b buf = ((s.skip (1 + 1)).putBlock b buf).skip 1 := by
      show _ = ((s.skip 2).skip 1).putBlock b buf
      rw [skip_skip]
    exact (hostOk_true_iff).mpr ⟨third, last⟩

theorem writeDirent_ok_iff {index : Int} {e : DirEntry} : writeDirent b index e s = some (.ok, t) ↔
    ¬ (b = fatFree ∨ b = fatEoc) ∧ ¬ (index < 0 ∨ (s.entriesPerBlock : Int) ≤ index) ∧
      s.blockOffset b + s.gBlockSize ≤ s.fileSize ∧ s.Carries 6 ∧
      t = (s.skip 6).putDirent (b, index.toNat) e := by
  unfold writeDirent
  constructor
  · intro run
    split at run
    · cases run
    next proper =>
    obtain ⟨room, u, first, run⟩ := Prog.bind_inv run
    cases room with
    | false => cases run
    | true =>
    obtain ⟨carried, rfl⟩ := (hostOk_true_iff).mp first
    rw [if_neg (by decide)] at run
    obtain ⟨read, v, second, run⟩ := Prog.bind_inv run
    cases read with
    | none => cases run
    | some buf =>
    obtain ⟨carried', stored, rfl, rfl⟩ := (readBlock_some_iff (s := s.skip 1) opened).mp second
    dsimp only at run
    rw [Prog.get_bind] at run
    split at run
    · cases run
    next inside =>
    obtain ⟨written, w, third, run⟩ := Prog.bind_inv run
    cases written with
    | false => cases run
    | true =>
        cases run
        obtain ⟨carried'', rfl⟩ := (writeBlock_true_iff (s := (s.skip 1).skip 2) opened).mp third
        have last : (s.skip (1 + 2)).Carries 3 := skip_skip s 1 2 ▸ carried''
        refine ⟨proper, inside, stored, ?_, ?_⟩
        · exact (carries_add).mpr ⟨(carries_add).mpr ⟨carried, carried'⟩, last⟩
        · rw [skip_skip, skip_skip]
          rfl
  · rintro ⟨proper, inside, stored, carried, rfl⟩
    obtain ⟨front, third⟩ := (carries_add).mp (show s.Carries (1 + 2 + 3) from carried)
    obtain ⟨first, second⟩ := (carries_add).mp front
    have room : malloc s = some (true, s.skip 1) := (hostOk_true_iff).mpr ⟨first, rfl⟩
    rw [if_neg proper, Prog.bind_of_run room, if_neg (by decide),
      Prog.bind_of_run ((readBlock_some_iff (s := s.skip 1) opened).mpr ⟨second, stored, rfl, rfl⟩),
      skip_skip]
    have writing := (@writeBlock_true_iff (s.skip (1 + 2)) _ b
      (setDirentAt (s.block b) index.toNat e) opened).mpr ⟨third, rfl⟩
    rw [skip_skip] at writing
    dsimp only
    rw [Prog.get_bind]
    have inside' : ¬ (index < 0 ∨ ((s.skip (1 + 2)).entriesPerBlock : Int) ≤ index) := inside
    rw [if_neg inside']
    exact (Prog.bind_of_run writing _).trans rfl

end Calls

end PennOs.Fat
