import PennOs.User.Redirections

set_option autoImplicit false

/- One turn of the loop of `thrd_shell_fn`. -/
namespace PennOs.Shell

open PennOs.Util
open PennOs.User (Descriptors Outcomes shellMain)

/-- `MAX_LINE_LENGTH` -/
def maxLineLength : Nat := 4096

/-- `'\n'` -/
def newline : UInt8 := 10

/-- The loop of `shell_read_cmd`, with room for so many bytes: what is stored of the input. -/
def readCmdLoop : Nat → List UInt8 → List UInt8
  | 0, _ => []
  | _ + 1, [] => []
  | room + 1, ch :: rest => if ch = newline then [ch] else ch :: readCmdLoop room rest

/-- A byte that `shell_read_cmd` takes for empty input: blank, tab or newline. -/
def isEmptyByte (c : UInt8) : Bool := c = 32 || c = 9 || c = newline

/-- `shell_read_cmd` on the input up to its end: the result, and the string before its NUL. -/
def shellReadCmd (input : List UInt8) : Int × List UInt8 :=
  let cmdString := readCmdLoop (maxLineLength - 1) input
  if input = [] then (-1, [])
  else if cmdString.all isEmptyByte then (0, cmdString)
  else (cmdString.length, cmdString)

/-- What must not happen in a turn. -/
inductive Trip where
  /-- `commands[0]` of an empty command is read -/
  | emptyCommand
  /-- `k_waitpid` panics -/
  | waitPanic (pid : Int)
  /-- one of the two inside `shell_main` -/
  | shellMain
  deriving DecidableEq, Repr

/-- How a turn of the loop ends. -/
inductive ShellTurn where
  | leave
  | next
  deriving DecidableEq, Repr

/-- `s_waitpid` -/
def sWaitpid (pid : Int) : Except Trip Unit :=
  if pid ≤ 0 then .error (.waitPanic pid) else .ok ()

/-- The commands that the loop runs itself. -/
inductive ExperimentalCmd where
  | ps
  | sleep
  | pcbvec
  | ps1
  | zombify
  | orphanify
  deriving DecidableEq, Repr

/-- The chain of `strcmp`. -/
def experimentalCmd (name : List UInt8) : Option ExperimentalCmd :=
  if name = ascii "ps" then some .ps
  else if name = ascii "sleep" then some .sleep
  else if name = ascii "pcbvec" then some .pcbvec
  else if name = ascii "ps1" then some .ps1
  else if name = ascii "zombify" then some .zombify
  else if name = ascii "orphanify" then some .orphanify
  else none

/-- A branch of the chain; `spawned` is the result of its `s_spawn`. -/
def runExperimental (isBackground : Bool) (spawned : Int) : ExperimentalCmd → Except Trip Unit
  | .ps => sWaitpid spawned
  | .sleep => sWaitpid spawned
  | .pcbvec => .ok ()
  | .ps1 => .ok ()
  | .zombify => if isBackground then .ok () else sWaitpid spawned
  | .orphanify => if isBackground then .ok () else sWaitpid spawned

/-- What the loop does with a parsed command. -/
def runParsed (outcomes : Outcomes) (spawned : Int) (fds : Descriptors) (pcmd : ParsedCommand) :
    Except Trip ShellTurn :=
  -- `commands[0][0]` is read before `num_commands` is looked at
  match pcmd.argv 0 with
  | none => .error .emptyCommand
  | some [] => .error .emptyCommand
  | some (name :: _) =>
      match experimentalCmd name with
      | some cmd => do
          runExperimental pcmd.isBackground spawned cmd
          return .next
      | none =>
          if pcmd.numCommands = 0 then .ok .next
          else
            match shellMain outcomes pcmd fds with
            | none => .error .shellMain
            | some _ => .ok .next

/-- One turn of the loop of `thrd_shell_fn`. `outcomes` are those of the calls in `shell_main`. -/
def thrdShellTurn (heap : Heap) (outcomes : Outcomes) (spawned : Int) (fds : Descriptors)
    (input : List UInt8) : Except Trip ShellTurn :=
  let (numBytesRead, cmdString) := shellReadCmd input
  if numBytesRead = -1 then .ok .leave
  else if numBytesRead = 0 then .ok .next
  else
    match parseCommand heap (cmdString.takeWhile fun c => c ≠ 0) with
    | .error _ => .ok .next
    | .ok pcmd => runParsed outcomes spawned fds pcmd

/-- The line that the parser is given. -/
def lineOf (input : List UInt8) : List UInt8 := (shellReadCmd input).2.takeWhile fun c => c ≠ 0

/-- There is nothing to parse. -/
def NoLine (input : List UInt8) : Prop := (shellReadCmd input).1 = -1 ∨ (shellReadCmd input).1 = 0

/-- The first word of the first command. -/
def firstWord (line : List UInt8) : Option (List UInt8) :=
  ((segments (tokens (unmarked (lineBody line))))[0]?.map args).bind List.head?

/-- The command makes the loop wait for its process. -/
def Waits (line : List UInt8) : Prop :=
  ∃ cmd, (firstWord line).bind experimentalCmd = some cmd ∧
    (cmd = .ps ∨ cmd = .sleep ∨
      (cmd = .zombify ∨ cmd = .orphanify) ∧ marked (lineBody line) = false)

/-- When a turn does not trip. -/
def Safe (heap : Heap) (spawned : Int) (input : List UInt8) : Prop :=
  NoLine input ∨ heap.calloc = false ∨
    lineBody (lineOf input) ≠ [] ∧
      (heap.realloc = true → Accepted (tokens (unmarked (lineBody (lineOf input)))) →
        Waits (lineOf input) → 0 < spawned)

variable {heap : Heap} {outcomes : Outcomes} {spawned : Int} {fds : Descriptors}
  {input line : List UInt8} {pcmd : ParsedCommand}

theorem lineOf_noNul (input : List UInt8) : ∀ c ∈ lineOf input, c ≠ 0 := by
  intro c member
  simpa using List.mem_takeWhile_imp member

theorem sWaitpid_ok {pid : Int} : sWaitpid pid = .ok () ↔ 0 < pid := by
  rw [sWaitpid]
  split <;> simp <;> omega

/-- A branch of the chain trips exactly where it waits for a process that there is not. -/
theorem runExperimental_ok {isBackground : Bool} {cmd : ExperimentalCmd} :
    runExperimental isBackground spawned cmd = .ok () ↔
      (cmd = .ps ∨ cmd = .sleep ∨ (cmd = .zombify ∨ cmd = .orphanify) ∧ isBackground = false →
        0 < spawned) := by
  cases cmd with
  | ps => simp [runExperimental, sWaitpid_ok]
  | sleep => simp [runExperimental, sWaitpid_ok]
  | pcbvec => simp [runExperimental]
  | ps1 => simp [runExperimental]
  | zombify => cases isBackground <;> simp [runExperimental, sWaitpid_ok]
  | orphanify => cases isBackground <;> simp [runExperimental, sWaitpid_ok]

/-- A line that the parser refuses is passed over. -/
theorem safe_of_error {e : ParserError} (refused : parseCommand heap (lineOf input) = .error e) :
    Safe heap spawned input := by
  by_cases calloc : heap.calloc = true
  · refine .inr (.inr ⟨?_, ?_⟩)
    · intro empty
      rw [parseCommand_empty calloc empty] at refused
      cases refused
    · intro realloc accepted
      by_cases empty : lineBody (lineOf input) = []
      · rw [parseCommand_empty calloc empty] at refused
        cases refused
      obtain ⟨pass, run, last⟩ := (checkTokens_iff_accepted _).mpr accepted
      rw [(parseCommand_ok calloc empty).mpr ⟨realloc, pass, run, last, rfl⟩] at refused
      cases refused
  · exact .inr (.inl (by simpa using calloc))

/-- What the loop sees of a line that is parsed to a command. -/
theorem parsed_command (parsed : parseCommand heap (lineOf input) = .ok pcmd)
    (some_ : lineBody (lineOf input) ≠ []) :
    heap.realloc = true ∧ Accepted (tokens (unmarked (lineBody (lineOf input)))) ∧
      pcmd.isBackground = marked (lineBody (lineOf input)) ∧
      ∃ name rest, pcmd.argv 0 = some (name :: rest) ∧ firstWord (lineOf input) = some name := by
  obtain ⟨accepted, parse⟩ := parseCommand_isParse parsed some_ (lineOf_noNul input)
  obtain ⟨name, rest, words⟩ := parseCommand_words parsed some_ (lineOf_noNul input)
  have realloc := ((parseCommand_ok (parseCommand_calloc parsed) some_).mp parsed).1
  refine ⟨realloc, accepted, parse.isBackground, name, rest, words, ?_⟩
  rw [firstWord, ← parse.argv 0, words]
  rfl

/-- A parsed command trips where the branch of its first word does. -/
theorem runParsed_ok (outcomes : Outcomes) (fds : Descriptors)
    (parsed : parseCommand heap (lineOf input) = .ok pcmd)
    (some_ : lineBody (lineOf input) ≠ []) :
    (∃ turn, runParsed outcomes spawned fds pcmd = .ok turn) ↔ (Waits (lineOf input) → 0 < spawned) := by
  obtain ⟨-, -, background, name, rest, words, first⟩ := parsed_command parsed some_
  rw [runParsed, words]
  dsimp only
  rw [Waits, first, Option.bind_some, ← background]
  cases known : experimentalCmd name with
  | none =>
      refine iff_of_true ?_ (fun waits => by obtain ⟨cmd, found, -⟩ := waits; cases found)
      dsimp only
      split
      · exact ⟨_, rfl⟩
      · obtain ⟨ret, fds', run⟩ := User.shellMain_returns parsed some_ (lineOf_noNul input) fds
        rw [run]
        exact ⟨_, rfl⟩
  | some cmd =>
      have branch := @runExperimental_ok spawned pcmd.isBackground cmd
      constructor
      · rintro ⟨turn, run⟩ ⟨cmd', same, waits⟩
        obtain rfl := Option.some.inj same
        cases ended : runExperimental pcmd.isBackground spawned cmd with
        | error trip =>
            simp only [ended] at run
            cases run
        | ok _ => exact branch.mp ended waits
      · intro enough
        have ended := branch.mpr fun waits => enough ⟨cmd, rfl, waits⟩
        refine ⟨.next, ?_⟩
        simp only [ended]
        rfl

/-- A turn of the shell's loop reads no empty command and waits for no PID that is not positive
exactly on `Safe`. -/
theorem thrdShellTurn_safe_iff (heap : Heap) (outcomes : Outcomes) (spawned : Int) (fds : Descriptors)
    (input : List UInt8) :
    (∃ turn, thrdShellTurn heap outcomes spawned fds input = .ok turn) ↔ Safe heap spawned input := by
  rw [thrdShellTurn]
  by_cases left : (shellReadCmd input).1 = -1
  · simp only [left, ↓reduceIte]
    exact iff_of_true ⟨_, rfl⟩ (.inl (.inl left))
  by_cases nothing : (shellReadCmd input).1 = 0
  · simp only [nothing, ↓reduceIte]
    exact iff_of_true ⟨_, rfl⟩ (.inl (.inr nothing))
  have line : ¬ NoLine input := not_or.mpr ⟨left, nothing⟩
  have same : (shellReadCmd input).2.takeWhile (fun c => decide (c ≠ 0)) = lineOf input := rfl
  simp only [left, nothing, ↓reduceIte, same]
  cases parsed : parseCommand heap (lineOf input) with
  | error e => exact iff_of_true ⟨_, rfl⟩ (safe_of_error parsed)
  | ok pcmd =>
      have calloc := parseCommand_calloc parsed
      have memory : heap.calloc ≠ false := by simp [calloc]
      by_cases empty : lineBody (lineOf input) = []
      · rw [parseCommand_empty calloc empty] at parsed
        obtain rfl := Except.ok.inj parsed
        apply iff_of_false
        · rintro ⟨turn, run⟩
          cases run
        · rintro (none_ | failed | ⟨some_, -⟩)
          · exact line none_
          · exact memory failed
          · exact some_ empty
      · obtain ⟨realloc, accepted, -⟩ := parsed_command parsed empty
        rw [show (match (Except.ok pcmd : Except ParserError ParsedCommand) with
          | .error _ => Except.ok ShellTurn.next
          | .ok pcmd => runParsed outcomes spawned fds pcmd) = runParsed outcomes spawned fds pcmd from rfl,
          runParsed_ok outcomes fds parsed empty]
        constructor
        · intro enough
          exact .inr (.inr ⟨empty, fun _ _ => enough⟩)
        · rintro (none_ | failed | ⟨-, enough⟩)
          · exact absurd none_ line
          · exact absurd failed memory
          · exact enough realloc accepted

/-- `#x` and a newline -/
def commentInput : List UInt8 := [hash, 120, newline]

/-- `ps` and a newline -/
def psInput : List UInt8 := [112, 115, newline]

theorem commentInput_trips :
    thrdShellTurn ⟨true, true, 7⟩ .good 2 ∅ commentInput = .error .emptyCommand := by
  decide +kernel

theorem psInput_trips :
    thrdShellTurn ⟨true, true, 7⟩ .good (-1) ∅ psInput = .error (.waitPanic (-1)) := by
  decide +kernel

/-- A line with only a comment, and `ps` where `s_spawn` fails. -/
theorem thrdShellTurn_trips :
    (¬ ∀ (heap : Heap) (outcomes : Outcomes) (spawned : Int) (fds : Descriptors) (input : List UInt8),
        thrdShellTurn heap outcomes spawned fds input ≠ .error .emptyCommand) ∧
      ¬ ∀ (heap : Heap) (outcomes : Outcomes) (spawned : Int) (fds : Descriptors) (input : List UInt8),
        thrdShellTurn heap outcomes spawned fds input ≠ .error (.waitPanic spawned) :=
  ⟨fun never => never _ _ _ _ _ commentInput_trips, fun never => never _ _ _ _ _ psInput_trips⟩

end PennOs.Shell
