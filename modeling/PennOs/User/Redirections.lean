import Mathlib.Data.Finset.Card
import Mathlib.Data.Finset.Range
import PennOs.Fat.OpenAccounting
import PennOs.Shell.KillCommand
import PennOs.Util.ParserGrammar

set_option autoImplicit false

/- `shell_main` and the descriptors that it opens for `<`, `>` and `>>`. -/
namespace PennOs.User

open PennOs.Shell (ascii)
open PennOs.Util (ParsedCommand)

/-- The descriptors of `g_fd_table` that are in use. -/
abbrev Descriptors := Finset Nat

abbrev stdinFileno : Int := 0

abbrev stdoutFileno : Int := 1

/-- How the calls of `shell_main` end. An open that finds or creates its file may still have no
descriptor to give. -/
structure Outcomes where
  stdinOpens : Bool
  stdoutOpens : Bool
  stdinReopens : Bool
  stdoutReopens : Bool
  /-- what `s_spawn` returns for a stage -/
  spawn : Nat → Int

/-- The commands of `inline_funcs`. -/
def inlineFuncs : List (List UInt8) :=
  [ascii "nice_pid", ascii "jobs", ascii "bg", ascii "fg", ascii "logout", ascii "man"]

/-- The commands of `independent_funcs`. -/
def independentFuncs : List (List UInt8) :=
  [ascii "ps", ascii "echo", ascii "sleep", ascii "touch", ascii "ls", ascii "cat", ascii "chmod",
    ascii "zombify", ascii "orphanify", ascii "busy", ascii "kill", ascii "nice", ascii "cp",
    ascii "mv", ascii "rm"]

/-- Whether `get_func_from_cmd` finds a function. -/
def getFuncFromCmd (cmdName : List UInt8) (funcMatch : List (List UInt8)) : Bool :=
  funcMatch.contains cmdName

/-- The slot that `k_open` takes. -/
def lowestFree (fds : Descriptors) : Option Nat :=
  Search.firstFrom (fun fd => decide (fd ∉ fds)) Fat.maxFd 0

/-- `s_open`; `none` for a negative result. -/
def sOpen (opens : Bool) : Prog Descriptors (Option Nat) := fun fds =>
  match if opens then lowestFree fds else none with
  | none => some (none, fds)
  | some fd => some (some fd, insert fd fds)

/-- `s_close` -/
def sClose (fd : Int) : Prog Descriptors Unit :=
  Prog.modify fun fds => if 0 ≤ fd then fds.erase fd.toNat else fds

/-- `s_waitpid` without its result: `k_waitpid` panics on a PID that is not positive. -/
def sWaitpid (pid : Int) : Prog Descriptors Unit := if pid ≤ 0 then Prog.fault else return ()

/-- The wait of `shell_main` for a job that is not in the background; its result only chooses a
message. -/
def waitForeground (cmd : ParsedCommand) (pid : Int) : Prog Descriptors Unit :=
  if cmd.isBackground then return () else sWaitpid pid

/-- `if (condition) s_close(fd)` -/
def closeIf (condition : Bool) (fd : Int) : Prog Descriptors Unit :=
  if condition then sClose fd else return ()

/-- `s_pipe`: `k_pipe` is not implemented, and fails. -/
def sPipe : Option (Int × Int) := none

/-- The descriptor for a redirection, or the default where there is none; `none` if the open fails. -/
def openRedirect (file : Option Nat) (opens : Bool) (default : Int) : Prog Descriptors (Option Int) := do
  match file with
  | none => return some default
  | some _ => return (← sOpen opens).map Int.ofNat

/-- `spawn_stage` -/
def spawnStage (outcomes : Outcomes) (cmd : ParsedCommand) (stage : Nat) : Prog Descriptors Int :=
  match cmd.argv stage with
  | none => Prog.fault
  | some [] => return -1
  | some (name :: _) =>
      if getFuncFromCmd name independentFuncs then return outcomes.spawn stage else return -1

/-- The loop of `process_one_command`, with `left` stages to go. -/
def stageLoop (outcomes : Outcomes) (cmd : ParsedCommand) : Nat → Int → Int → Prog Descriptors Int
  | 0, _, firstPid => return firstPid
  | left + 1, prevRd, firstPid => do
      let stage := cmd.numCommands - (left + 1)
      -- the read end for the next stage, and this one's output
      let ends ← if stage + 1 < cmd.numCommands then pure sPipe
        else do
          let out ← openRedirect cmd.stdoutFile outcomes.stdoutReopens stdoutFileno
          pure (out.map fun fd => ((-1 : Int), fd))
      match ends with
      | none => return -1
      | some (nextRd, thisOut) =>
          let pid ← spawnStage outcomes cmd stage
          if pid < 0 then return -1
          closeIf (prevRd ≠ stdinFileno) prevRd
          closeIf (thisOut ≠ stdoutFileno) thisOut
          stageLoop outcomes cmd left nextRd (if firstPid = -1 then pid else firstPid)

/-- `process_one_command`, without an error file. -/
def processOneCommand (outcomes : Outcomes) (cmd : ParsedCommand) : Prog Descriptors Int := do
  match ← openRedirect cmd.stdinFile outcomes.stdinReopens stdinFileno with
  | none => return -1
  | some prevRd => stageLoop outcomes cmd cmd.numCommands prevRd (-1)

/-- `shell_main`, without what it prints. -/
def shellMain (outcomes : Outcomes) (cmd : ParsedCommand) : Prog Descriptors Int :=
  match cmd.argv 0 with
  | none => Prog.fault
  | some [] => Prog.fault
  | some (name :: _) => do
      -- nothing adds to the job table, so that `fg` finds no job and waits for none
      if getFuncFromCmd name inlineFuncs then return 0
      match ← openRedirect cmd.stdinFile outcomes.stdinOpens stdinFileno with
      | none => return 0
      | some redirIn =>
          match ← openRedirect cmd.stdoutFile outcomes.stdoutOpens stdoutFileno with
          | none =>
              closeIf cmd.stdinFile.isSome redirIn
              return 0
          | some redirOut =>
              let childPid ← processOneCommand outcomes cmd
              if childPid ≤ 0 then return -1
              waitForeground cmd childPid
              closeIf cmd.stdinFile.isSome redirIn
              closeIf cmd.stdoutFile.isSome redirOut
              return 0

variable {fds fds' : Descriptors} {file : Option Nat} {opens : Bool} {default fd : Int}
  {outcomes : Outcomes} {cmd : ParsedCommand} {n : Nat}

section Slots

/-- How many descriptors are free. -/
def room (fds : Descriptors) : Nat := (Finset.range Fat.maxFd \ fds).card

/-- How many descriptors an open asks for. -/
def asks (file : Option Nat) : Nat := file.isSome.toNat

theorem lowestFree_some (found : lowestFree fds = some n) :
    n < Fat.maxFd ∧ n ∉ fds ∧ ∀ m < n, m ∈ fds := by
  obtain ⟨-, high, free, before⟩ := Search.firstFrom_some found
  refine ⟨by omega, by simpa using free, fun m low => ?_⟩
  simpa using before m (Nat.zero_le m) low

theorem lowestFree_none : lowestFree fds = none ↔ room fds = 0 := by
  rw [lowestFree, Search.firstFrom_none, room, Finset.card_eq_zero, Finset.sdiff_eq_empty_iff_subset]
  constructor
  · intro all fd inside
    simpa using all fd (Nat.zero_le fd) (by simpa using inside)
  · intro all fd _ high
    simpa using all (Finset.mem_range.mpr (by omega))

theorem room_insert (low : n < Fat.maxFd) (free : n ∉ fds) : room (insert n fds) + 1 = room fds := by
  rw [room, room, Finset.sdiff_insert]
  apply Finset.card_erase_add_one
  simp [low, free]

/-- What an open that did not fail has done. -/
inductive Opening (file : Option Nat) (default : Int) (fds : Descriptors) :
    Int → Descriptors → Prop where
  | absent : file = none → Opening file default fds default fds
  | taken {n : Nat} : file.isSome = true → n < Fat.maxFd → n ∉ fds → (∀ m < n, m ∈ fds) →
      Opening file default fds n (insert n fds)

theorem Opening.room (opening : Opening file default fds fd fds') :
    room fds' + asks file = room fds := by
  cases opening with
  | absent none_ =>
      rw [none_]
      rfl
  | taken some_ low free _ =>
      rw [asks, some_]
      exact room_insert low free

/-- An open fails for its file, or for want of a descriptor. -/
theorem openRedirect_run (file : Option Nat) (opens : Bool) (default : Int) (fds : Descriptors) :
    (openRedirect file opens default fds = some (none, fds) ∧
        ¬ ((file.isSome = true → opens = true) ∧ asks file ≤ room fds)) ∨
      ∃ fd fds', openRedirect file opens default fds = some (some fd, fds') ∧
        Opening file default fds fd fds' ∧ (file.isSome = true → opens = true) ∧
        asks file ≤ room fds := by
  cases file with
  | none => exact .inr ⟨default, fds, rfl, .absent rfl, nofun, Nat.zero_le _⟩
  | some pointer =>
      cases opens with
      | false => exact .inl ⟨rfl, by simp⟩
      | true =>
          cases found : lowestFree fds with
          | none =>
              have full := lowestFree_none.mp found
              refine .inl ⟨?_, by simp [asks, full]⟩
              simp [openRedirect, Prog.bind_run, sOpen, found]
          | some n =>
              obtain ⟨low, free, below⟩ := lowestFree_some found
              have left := room_insert low free
              refine .inr ⟨n, insert n fds, ?_, .taken rfl low free below, fun _ => rfl, ?_⟩
              · simp [openRedirect, Prog.bind_run, sOpen, found]
              · rw [← left]
                exact Nat.succ_le_succ (Nat.zero_le _)

end Slots

section Stages

/-- The files of a command open, with so many descriptors free. -/
def FilesOpen (cmd : ParsedCommand) (stdinOpens stdoutOpens : Bool) (free : Nat) : Prop :=
  (cmd.stdinFile.isSome = true → stdinOpens = true) ∧
    (cmd.stdoutFile.isSome = true → stdoutOpens = true) ∧
    asks cmd.stdinFile + asks cmd.stdoutFile ≤ free

/-- The single stage of a command gets a process. -/
def Spawns (outcomes : Outcomes) (cmd : ParsedCommand) : Prop :=
  0 < outcomes.spawn 0 ∧ ∃ name rest, cmd.argv 0 = some (name :: rest) ∧
    getFuncFromCmd name independentFuncs = true

/-- `process_one_command` comes to a process. -/
def Completes (outcomes : Outcomes) (cmd : ParsedCommand) (fds : Descriptors) : Prop :=
  cmd.numCommands = 1 ∧
    FilesOpen cmd outcomes.stdinReopens outcomes.stdoutReopens (room fds) ∧ Spawns outcomes cmd

/-- What a call of `process_one_command` leaves where it gives up: at least the descriptors that
there were. -/
structure GivesUp (cmd : ParsedCommand) (fds : Descriptors) (pid : Int) (fds' : Descriptors) : Prop where
  failed : pid ≤ 0
  kept : fds ⊆ fds'
  none_ : cmd.stdinFile = none → cmd.stdoutFile = none → fds' = fds

theorem Opening.subset (opening : Opening file default fds fd fds') : fds ⊆ fds' := by
  cases opening with
  | absent => exact Finset.Subset.refl fds
  | taken => exact Finset.subset_insert _ _

theorem Opening.of_none (opening : Opening none default fds fd fds') : fd = default ∧ fds' = fds := by
  cases opening with
  | absent => exact ⟨rfl, rfl⟩
  | taken some_ => cases some_

/-- The table after `closeIf`. -/
def closed (condition : Bool) (fd : Int) (fds : Descriptors) : Descriptors :=
  if condition = true ∧ 0 ≤ fd then fds.erase fd.toNat else fds

theorem closeIf_run (condition : Bool) (fd : Int) (fds : Descriptors) :
    closeIf condition fd fds = some ((), closed condition fd fds) := by
  cases condition with
  | false => simp [closeIf, closed]
  | true => simp [closeIf, closed, sClose]

theorem spawnStage_inv {pid : Int} (run : spawnStage outcomes cmd 0 fds = some (pid, fds')) :
    fds' = fds ∧ (0 < pid ↔ Spawns outcomes cmd) := by
  rw [spawnStage] at run
  cases words : cmd.argv 0 with
  | none => simp [words] at run
  | some argv =>
      cases argv with
      | nil =>
          simp only [words, Prog.pure_run, Option.some.injEq, Prod.mk.injEq] at run
          obtain ⟨rfl, rfl⟩ := run
          simp [Spawns, words]
      | cons name rest =>
          by_cases found : getFuncFromCmd name independentFuncs = true
          · rw [words] at run
            dsimp only at run
            rw [if_pos found, Prog.pure_run] at run
            cases run
            simp [Spawns, words, found]
          · rw [words] at run
            dsimp only at run
            rw [if_neg found, Prog.pure_run] at run
            cases run
            simp [Spawns, words, found]

theorem waitForeground_run {pid : Int} (positive : 0 < pid) (fds : Descriptors) :
    waitForeground cmd pid fds = some ((), fds) := by
  rw [waitForeground]
  split
  · rfl
  · rw [sWaitpid, if_neg (by omega)]
    rfl

/-- The only stage of a command. -/
theorem stageLoop_one (one : cmd.numCommands = 1) {prevRd thisOut pid : Int} {fds₁ fds₂ : Descriptors}
    (opened : openRedirect cmd.stdoutFile outcomes.stdoutReopens stdoutFileno fds₁ =
      some (some thisOut, fds₂))
    (run : stageLoop outcomes cmd 1 prevRd (-1) fds₁ = some (pid, fds')) :
    (0 < pid ↔ Spawns outcomes cmd) ∧
      (pid < 0 ∧ fds' = fds₂ ∨ 0 ≤ pid ∧
        fds' = closed (thisOut ≠ stdoutFileno) thisOut (closed (prevRd ≠ stdinFileno) prevRd fds₂)) := by
  rw [stageLoop] at run
  simp only [one, Nat.sub_self, Nat.zero_add, Nat.lt_irrefl, ↓reduceIte, Prog.bind_of_run opened,
    Option.map_some, Prog.pure_bind_run] at run
  obtain ⟨pid', fds₃, spawned, rest⟩ := Prog.bind_inv run
  obtain ⟨rfl, process⟩ := spawnStage_inv spawned
  by_cases negative : pid' < 0
  · rw [if_pos negative, Prog.pure_run] at rest
    cases rest
    exact ⟨⟨fun positive => absurd positive (by decide), fun spawns =>
      absurd (process.mpr spawns) (by omega)⟩,
      .inl ⟨by decide, rfl⟩⟩
  · rw [if_neg negative, Prog.bind_of_run (closeIf_run _ _ _),
      Prog.bind_of_run (closeIf_run _ _ _)] at rest
    cases rest
    exact ⟨process, .inr ⟨by omega, rfl⟩⟩

theorem erase_both {m : Nat} (free : m ∉ fds) (free' : n ∉ insert m fds) :
    ((insert n (insert m fds)).erase m).erase n = fds := by
  obtain ⟨apart, fresh⟩ := not_or.mp (fun either => free' (Finset.mem_insert.mpr either))
  rw [Finset.insert_comm, Finset.erase_insert, Finset.erase_insert fresh]
  simp [free, Ne.symm apart]

/-- The closes of the parent undo the opens of its command, but for descriptor 1 taken for the
default output. -/
theorem closed_opened {prevRd thisOut : Int} {fds₁ fds₂ : Descriptors}
    (zero : cmd.stdinFile.isSome = true ∨ cmd.stdoutFile.isSome = true → 0 ∈ fds)
    (first : Opening cmd.stdinFile stdinFileno fds prevRd fds₁)
    (second : Opening cmd.stdoutFile stdoutFileno fds₁ thisOut fds₂) :
    closed (thisOut ≠ stdoutFileno) thisOut (closed (prevRd ≠ stdinFileno) prevRd fds₂) =
      if cmd.stdinFile = none ∧ cmd.stdoutFile.isSome = true ∧ 1 ∉ fds then insert 1 fds else fds := by
  cases first with
  | absent noInput =>
      cases second with
      | absent noOutput => simp [closed, noOutput]
      | @taken n output low free below =>
          have positive : n ≠ 0 := fun same => free (same ▸ zero (.inr output))
          by_cases one : n = 1
          · subst one
            simp [closed, noInput, output, free]
          · have held : 1 ∈ fds := below 1 (by omega)
            simp [closed, one, noInput, held, free]
  | @taken m input low free below =>
      have positive : m ≠ 0 := fun same => free (same ▸ zero (.inl input))
      have some_ : cmd.stdinFile ≠ none := by
        intro none_
        rw [none_] at input
        cases input
      cases second with
      | absent noOutput => simp [closed, positive, some_, free]
      | @taken n output low' free' below' =>
          obtain ⟨apart, fresh⟩ := not_or.mp (fun either => free' (Finset.mem_insert.mpr either))
          have one : n ≠ 1 := by
            rintro rfl
            exact fresh (below 1 (by omega))
          simp [closed, positive, one, some_, erase_both free free']

/-- A call that gives up has opened at most what the command redirects. -/
theorem GivesUp.of_openings {prevRd thisOut pid : Int} {fds₁ fds₂ : Descriptors} (failed : pid ≤ 0)
    (first : Opening cmd.stdinFile stdinFileno fds prevRd fds₁)
    (second : Opening cmd.stdoutFile stdoutFileno fds₁ thisOut fds₂) : GivesUp cmd fds pid fds₂ where
  failed := failed
  kept := first.subset.trans second.subset
  none_ := by
    intro noInput noOutput
    rw [noInput] at first
    rw [noOutput] at second
    rw [second.of_none.2, first.of_none.2]

theorem GivesUp.of_opening {prevRd pid : Int} (failed : pid ≤ 0)
    (first : Opening cmd.stdinFile stdinFileno fds prevRd fds') : GivesUp cmd fds pid fds' where
  failed := failed
  kept := first.subset
  none_ := by
    intro noInput _
    rw [noInput] at first
    exact first.of_none.2

/-- A call of `process_one_command` comes to a process, and closes what it opened but perhaps
descriptor 1, or it gives up, and closes nothing. -/
theorem processOneCommand_inv {pid : Int}
    (zero : cmd.stdinFile.isSome = true ∨ cmd.stdoutFile.isSome = true → 0 ∈ fds)
    (run : processOneCommand outcomes cmd fds = some (pid, fds')) :
    (0 < pid ∧ Completes outcomes cmd fds ∧ fds' =
        if cmd.stdinFile = none ∧ cmd.stdoutFile.isSome = true ∧ 1 ∉ fds then insert 1 fds else fds) ∨
      (GivesUp cmd fds pid fds' ∧ ¬ Completes outcomes cmd fds) := by
  rw [processOneCommand] at run
  rcases openRedirect_run cmd.stdinFile outcomes.stdinReopens stdinFileno fds with
    ⟨opened, closed_⟩ | ⟨prevRd, fds₁, opened, first, exists_, slot⟩
  · rw [Prog.bind_of_run opened] at run
    cases run
    refine .inr ⟨⟨by decide, Finset.Subset.refl _, fun _ _ => rfl⟩, ?_⟩
    rintro ⟨-, ⟨exists_, -, slots⟩, -⟩
    exact closed_ ⟨exists_, by omega⟩
  rw [Prog.bind_of_run opened] at run
  dsimp only at run
  have shrunk := first.room
  cases count : cmd.numCommands with
  | zero =>
      rw [count] at run
      cases run
      exact .inr ⟨.of_opening (by decide) first, fun completes => by simp [Completes, count] at completes⟩
  | succ left =>
      cases left with
      | succ left =>
          -- a pipe is asked for, and there are none
          have several : cmd.numCommands - (left + 1 + 1) + 1 < cmd.numCommands := by omega
          rw [count, stageLoop] at run
          simp only [several, ↓reduceIte, sPipe, Prog.pure_bind_run] at run
          cases run
          exact .inr ⟨.of_opening (by decide) first,
            fun completes => by simp [Completes, count] at completes⟩
      | zero =>
          rw [count] at run
          rcases openRedirect_run cmd.stdoutFile outcomes.stdoutReopens stdoutFileno fds₁ with
            ⟨again, closed_⟩ | ⟨thisOut, fds₂, again, second, exists', slot'⟩
          · rw [Nat.zero_add, stageLoop] at run
            simp only [count, Nat.zero_add, Nat.sub_self, Nat.lt_irrefl, ↓reduceIte,
              Prog.bind_of_run again, Option.map_none, Prog.pure_bind_run] at run
            cases run
            refine .inr ⟨.of_opening (by decide) first, ?_⟩
            rintro ⟨-, ⟨-, exists', slots⟩, -⟩
            exact closed_ ⟨exists', by omega⟩
          · obtain ⟨process, ends⟩ := stageLoop_one count again run
            have completes : Completes outcomes cmd fds ↔ Spawns outcomes cmd :=
              ⟨fun all => all.2.2, fun spawns => ⟨count, ⟨exists_, exists', by omega⟩, spawns⟩⟩
            rw [completes, ← process]
            rcases ends with ⟨negative, rfl⟩ | ⟨-, rfl⟩
            · exact .inr ⟨.of_openings (by omega) first second, by omega⟩
            · rw [closed_opened zero first second]
              by_cases positive : 0 < pid
              · exact .inl ⟨positive, positive, rfl⟩
              · refine .inr ⟨⟨by omega, ?_, fun noInput noOutput => by simp [noOutput]⟩, positive⟩
                split
                · exact Finset.subset_insert _ _
                · exact Finset.Subset.refl _

end Stages

/-- When `shell_main` leaves the descriptors as they were. -/
def KeepsDescriptors (outcomes : Outcomes) (cmd : ParsedCommand) (fds : Descriptors) : Prop :=
  -- the command is a built-in that runs in the shell
  (∃ name rest, cmd.argv 0 = some (name :: rest) ∧ getFuncFromCmd name inlineFuncs = true) ∨
  -- there is no redirection
  (cmd.stdinFile = none ∧ cmd.stdoutFile = none) ∨
  -- the first opens fail
  ¬ FilesOpen cmd outcomes.stdinOpens outcomes.stdoutOpens (room fds) ∨
  -- every call succeeds, and the second open of the output is not given descriptor 1
  (cmd.numCommands = 1 ∧ Spawns outcomes cmd ∧
    FilesOpen cmd outcomes.stdinReopens outcomes.stdoutReopens
      (room fds - (asks cmd.stdinFile + asks cmd.stdoutFile)) ∧
    (cmd.stdinFile.isSome = true ∨ 0 ∈ fds ∨ 1 ∈ fds))

theorem Opening.closed (opening : Opening file default fds fd fds') :
    closed file.isSome fd fds' = fds := by
  cases opening with
  | absent none_ => simp [PennOs.User.closed, none_]
  | taken some_ _ free _ => simp [PennOs.User.closed, some_, free]

section ShellMain

variable {redirIn redirOut : Int} {fds₁ fds₂ : Descriptors}

/-- The first open of a command takes descriptor 0, or finds it taken. -/
theorem zero_taken (first : Opening cmd.stdinFile stdinFileno fds redirIn fds₁)
    (second : Opening cmd.stdoutFile stdoutFileno fds₁ redirOut fds₂)
    (redirects : cmd.stdinFile.isSome = true ∨ cmd.stdoutFile.isSome = true) : 0 ∈ fds₂ := by
  have lowest : ∀ {n : Nat} {fds : Descriptors}, (∀ m < n, m ∈ fds) → 0 ∈ insert n fds := by
    intro n fds below
    rcases Nat.eq_zero_or_pos n with rfl | positive
    · exact Finset.mem_insert_self _ _
    · exact Finset.mem_insert_of_mem (below 0 positive)
  cases second with
  | taken _ _ _ below => exact lowest below
  | absent noOutput =>
      cases first with
      | taken _ _ _ below => exact lowest below
      | absent noInput => simp [noInput, noOutput] at redirects

/-- The closes of `shell_main` leave descriptor 1 if the parent's closes have left it. -/
theorem closed_redirections (first : Opening cmd.stdinFile stdinFileno fds redirIn fds₁)
    (second : Opening cmd.stdoutFile stdoutFileno fds₁ redirOut fds₂) :
    closed cmd.stdoutFile.isSome redirOut (closed cmd.stdinFile.isSome redirIn
        (if cmd.stdinFile = none ∧ cmd.stdoutFile.isSome = true ∧ 1 ∉ fds₂ then insert 1 fds₂
          else fds₂)) = fds ↔
      cmd.stdinFile = none ∧ cmd.stdoutFile = none ∨ cmd.stdinFile.isSome = true ∨ 0 ∈ fds ∨
        1 ∈ fds := by
  by_cases input : cmd.stdinFile.isSome = true
  · have some_ : cmd.stdinFile ≠ none := by
      intro none_
      rw [none_] at input
      cases input
    rw [if_neg (fun all => some_ all.1)]
    apply iff_of_true _ (.inr (.inl input))
    cases first with
    | absent noInput => exact absurd noInput some_
    | @taken m _ low free below =>
        cases second with
        | absent noOutput => simp [closed, input, noOutput, free]
        | @taken n output low' free' below' => simp [closed, input, output, erase_both free free']
  · have noInput : cmd.stdinFile = none := by simpa using input
    rw [noInput] at first
    obtain ⟨-, rfl⟩ := first.of_none
    cases second with
    | absent noOutput => simp [noInput, noOutput, closed]
    | @taken n output low free below =>
        have some_ : cmd.stdoutFile ≠ none := by
          intro none_
          rw [none_] at output
          cases output
        simp only [noInput, output, some_, true_and, and_false, false_or, closed]
        by_cases zero : 0 ∈ fds₁
        · have one : 1 ∈ insert n fds₁ := by
            have positive : n ≠ 0 := fun same => free (same ▸ zero)
            rcases Nat.lt_or_ge 1 n with more | less
            · exact Finset.mem_insert_of_mem (below 1 more)
            · obtain rfl : n = 1 := by omega
              exact Finset.mem_insert_self _ _
          simp [one, zero, free]
        · have first_ : n = 0 := by
            apply Nat.eq_zero_of_not_pos
            exact fun positive => zero (below 0 positive)
          subst first_
          by_cases one : 1 ∈ fds₁
          · simp [one, zero]
          · have freed : (insert 1 (insert 0 fds₁)).erase 0 = insert 1 fds₁ := by
              rw [Finset.insert_comm, Finset.erase_insert]
              simp [zero]
            simp [one, zero, freed]

/-- The condition for a command that goes to `process_one_command`. -/
theorem keepsDescriptors_iff {name : List UInt8} {rest : List (List UInt8)}
    (words : cmd.argv 0 = some (name :: rest)) (other : ¬ getFuncFromCmd name inlineFuncs = true)
    (open_ : FilesOpen cmd outcomes.stdinOpens outcomes.stdoutOpens (room fds))
    (left : room fds - (asks cmd.stdinFile + asks cmd.stdoutFile) = room fds₂) :
    KeepsDescriptors outcomes cmd fds ↔
      (cmd.stdinFile = none ∧ cmd.stdoutFile = none) ∨ Completes outcomes cmd fds₂ ∧
        (cmd.stdinFile.isSome = true ∨ 0 ∈ fds ∨ 1 ∈ fds) := by
  rw [KeepsDescriptors, Completes, left]
  constructor
  · rintro (⟨name', rest', words', inline⟩ | plain | closed_ | ⟨one, spawns, files, standard⟩)
    · rw [words] at words'
      cases words'
      exact absurd inline other
    · exact .inl plain
    · exact absurd open_ closed_
    · exact .inr ⟨⟨one, files, spawns⟩, standard⟩
  · rintro (plain | ⟨⟨one, files, spawns⟩, standard⟩)
    · exact .inr (.inl plain)
    · exact .inr (.inr (.inr ⟨one, spawns, files, standard⟩))

/-- The descriptors are as before exactly on `KeepsDescriptors`. -/
theorem shellMain_descriptors {ret : Int} (run : shellMain outcomes cmd fds = some (ret, fds')) :
    fds' = fds ↔ KeepsDescriptors outcomes cmd fds := by
  rw [shellMain] at run
  cases words : cmd.argv 0 with
  | none => simp [words] at run
  | some argv =>
      cases argv with
      | nil => simp [words] at run
      | cons name rest =>
          rw [words] at run
          dsimp only at run
          by_cases inline : getFuncFromCmd name inlineFuncs = true
          · rw [if_pos inline] at run
            cases run
            exact iff_of_true rfl (.inl ⟨name, rest, words, inline⟩)
          rw [if_neg inline] at run
          rcases openRedirect_run cmd.stdinFile outcomes.stdinOpens stdinFileno fds with
            ⟨opened, closed_⟩ | ⟨redirIn, fds₁, opened, first, exists_, slot⟩
          · rw [Prog.bind_of_run opened] at run
            cases run
            refine iff_of_true rfl (.inr (.inr (.inl ?_)))
            rintro ⟨exists_, -, slots⟩
            exact closed_ ⟨exists_, by omega⟩
          rw [Prog.bind_of_run opened] at run
          dsimp only at run
          have shrunk := first.room
          rcases openRedirect_run cmd.stdoutFile outcomes.stdoutOpens stdoutFileno fds₁ with
            ⟨again, closed_⟩ | ⟨redirOut, fds₂, again, second, exists', slot'⟩
          · rw [Prog.bind_of_run again] at run
            dsimp only at run
            rw [Prog.bind_of_run (closeIf_run _ _ _), first.closed] at run
            cases run
            refine iff_of_true rfl (.inr (.inr (.inl ?_)))
            rintro ⟨-, exists', slots⟩
            exact closed_ ⟨exists', by omega⟩
          rw [Prog.bind_of_run again] at run
          dsimp only at run
          have shrunk' := second.room
          have open_ : FilesOpen cmd outcomes.stdinOpens outcomes.stdoutOpens (room fds) :=
            ⟨exists_, exists', by omega⟩
          have keeps := keepsDescriptors_iff words inline open_ (show _ = room fds₂ by omega)
          obtain ⟨pid, fds₃, process, rest'⟩ := Prog.bind_inv run
          rcases processOneCommand_inv (zero_taken first second) process with
            ⟨positive, completes, rfl⟩ | ⟨givesUp, fails⟩
          · rw [if_neg (by omega), Prog.bind_of_run (waitForeground_run positive _),
              Prog.bind_of_run (closeIf_run _ _ _), Prog.bind_of_run (closeIf_run _ _ _)] at rest'
            cases rest'
            rw [closed_redirections first second, keeps]
            simp [completes]
          · rw [if_pos givesUp.failed] at rest'
            cases rest'
            rw [keeps]
            constructor
            · intro same
              have held : fds₂ = fds :=
                (same ▸ givesUp.kept).antisymm (first.subset.trans second.subset)
              rw [held] at shrunk'
              have noInput : asks cmd.stdinFile = 0 := by omega
              have noOutput : asks cmd.stdoutFile = 0 := by omega
              simp only [asks, Bool.toNat_eq_zero, Option.isSome_eq_false_iff, Option.isNone_iff_eq_none]
                at noInput noOutput
              exact .inl ⟨noInput, noOutput⟩
            · rintro (⟨noInput, noOutput⟩ | completes)
              · rw [noInput] at first
                rw [noOutput] at second
                rw [givesUp.none_ noInput noOutput, second.of_none.2, first.of_none.2]
              · exact absurd completes.1 fails

theorem processOneCommand_returns {name : List UInt8} {rest : List (List UInt8)}
    (words : cmd.argv 0 = some (name :: rest)) (fds : Descriptors) :
    ∃ pid fds', processOneCommand outcomes cmd fds = some (pid, fds') := by
  rw [processOneCommand]
  rcases openRedirect_run cmd.stdinFile outcomes.stdinReopens stdinFileno fds with
    ⟨opened, -⟩ | ⟨prevRd, fds₁, opened, -⟩
  · exact ⟨_, _, Prog.bind_of_run opened _⟩
  rw [Prog.bind_of_run opened]
  dsimp only
  cases count : cmd.numCommands with
  | zero => exact ⟨_, _, rfl⟩
  | succ left =>
      rw [stageLoop]
      by_cases last : cmd.numCommands - (left + 1) + 1 < cmd.numCommands
      · simp only [last, ↓reduceIte, sPipe, Prog.pure_bind_run]
        exact ⟨_, _, rfl⟩
      · obtain rfl : left = 0 := by omega
        simp only [count, Nat.zero_add, Nat.sub_self, Nat.lt_irrefl, ↓reduceIte]
        rcases openRedirect_run cmd.stdoutFile outcomes.stdoutReopens stdoutFileno fds₁ with
          ⟨again, -⟩ | ⟨thisOut, fds₂, again, -⟩
        · rw [Prog.bind_of_run again]
          exact ⟨_, _, rfl⟩
        · rw [Prog.bind_of_run again]
          simp only [Option.map_some, Prog.pure_bind_run]
          obtain ⟨pid, spawned⟩ : ∃ pid, spawnStage outcomes cmd 0 fds₂ = some (pid, fds₂) := by
            rw [spawnStage, words]
            dsimp only
            split <;> exact ⟨_, rfl⟩
          rw [Prog.bind_of_run spawned]
          by_cases negative : pid < 0
          · rw [if_pos negative]
            exact ⟨_, _, rfl⟩
          · rw [if_neg negative, Prog.bind_of_run (closeIf_run _ _ _),
              Prog.bind_of_run (closeIf_run _ _ _)]
            exact ⟨_, _, rfl⟩

/-- `shell_main` returns on every command parsed from a line that is not blank. -/
theorem shellMain_returns {heap : Util.Heap} {line : List UInt8}
    (parsed : Util.parseCommand heap line = .ok cmd) (some_ : Util.lineBody line ≠ [])
    (noNul : ∀ c ∈ line, c ≠ 0) (fds : Descriptors) :
    ∃ ret fds', shellMain outcomes cmd fds = some (ret, fds') := by
  obtain ⟨name, rest, words⟩ := Util.parseCommand_words parsed some_ noNul
  rw [shellMain, words]
  dsimp only
  by_cases inline : getFuncFromCmd name inlineFuncs = true
  · rw [if_pos inline]
    exact ⟨_, _, rfl⟩
  rw [if_neg inline]
  rcases openRedirect_run cmd.stdinFile outcomes.stdinOpens stdinFileno fds with
    ⟨opened, -⟩ | ⟨redirIn, fds₁, opened, -⟩
  · rw [Prog.bind_of_run opened]
    exact ⟨_, _, rfl⟩
  rw [Prog.bind_of_run opened]
  dsimp only
  rcases openRedirect_run cmd.stdoutFile outcomes.stdoutOpens stdoutFileno fds₁ with
    ⟨again, -⟩ | ⟨redirOut, fds₂, again, -⟩
  · rw [Prog.bind_of_run again]
    dsimp only
    rw [Prog.bind_of_run (closeIf_run _ _ _)]
    exact ⟨_, _, rfl⟩
  rw [Prog.bind_of_run again]
  dsimp only
  obtain ⟨pid, fds₃, process⟩ := @processOneCommand_returns outcomes _ _ _ words fds₂
  rw [Prog.bind_of_run process]
  by_cases failed : pid ≤ 0
  · rw [if_pos failed]
    exact ⟨_, _, rfl⟩
  · rw [if_neg failed, Prog.bind_of_run (waitForeground_run (by omega) _),
      Prog.bind_of_run (closeIf_run _ _ _), Prog.bind_of_run (closeIf_run _ _ _)]
    exact ⟨_, _, rfl⟩

/-- `echo hi>f` -/
def echoLine : Util.CommandLine where
  bytes := [101, 99, 104, 111, 32, 104, 105, 62, 102]
  noNul := by simp
  ascii := by simp

/-- What the parser makes of it. -/
def echoCommand : ParsedCommand where
  isBackground := false
  isFileAppend := false
  stdinFile := none
  stdoutFile := some 8
  numCommands := 1
  commands := [0]
  arguments := [some 0, some 5, none]
  string := [101, 99, 104, 111, 0, 104, 105, 0, 102, 0]

/-- Every call succeeds. -/
def Outcomes.good : Outcomes := ⟨true, true, true, true, fun _ => 2⟩

theorem echo_parsed : Util.parseCommand ⟨true, true, 7⟩ echoLine.bytes = .ok echoCommand := by
  decide +kernel

theorem echo_run : shellMain .good echoCommand ∅ = some (0, {1}) := by
  decide +kernel

theorem shellMain_descriptors_echo : ({1} : Descriptors) = ∅ ↔ KeepsDescriptors .good echoCommand ∅ :=
  shellMain_descriptors echo_run

/-- With no descriptor in use, `echo hi > f` leaves descriptor 1 open although every call succeeds. -/
theorem shellMain_leaks :
    ¬ ∀ (heap : Util.Heap) (line : Util.CommandLine) (cmd : ParsedCommand) (outcomes : Outcomes)
        (fds fds' : Descriptors) (ret : Int), Util.parseCommand heap line.bytes = .ok cmd →
        shellMain outcomes cmd fds = some (ret, fds') → fds' = fds := by
  intro all
  have same := all _ _ _ _ _ _ _ echo_parsed echo_run
  exact absurd same (by decide)

end ShellMain

end PennOs.User
