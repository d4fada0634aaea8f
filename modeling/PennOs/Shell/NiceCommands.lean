import PennOs.Kernel.FailedSpawns
import PennOs.Shell.KillCommand
import PennOs.Shell.Numerals

set_option autoImplicit false

/- `nice_pid` and `nice`, and the numbers that they and `kill` act with. -/
namespace PennOs.Shell

open PennOs.Kernel (KernelM PcbPtr)

/-- The commands of `independent_funcs`. -/
def independentFuncs : List (List UInt8) :=
  ["ps", "echo", "sleep", "touch", "ls", "cat", "chmod", "zombify", "orphanify", "busy", "kill", "nice",
    "cp", "mv", "rm"].map ascii

/-- `get_func_from_cmd`; the command stands for its function. -/
def getFuncFromCmd (cmdName : List UInt8) (funcMatch : List (List UInt8)) : Option (List UInt8) :=
  funcMatch.find? fun cmd => cmd = cmdName

/-- What `u_nice_pid` and `u_nice` print. -/
inductive NiceReport where
  | invalidArg
  | argCount (command : List UInt8)
  | invalidPid (command : List UInt8)
  | invalidPriority (command : List UInt8)
  | invalidCommand (name : List UInt8)
  | set (pid priority : Int)
  | failed (command : List UInt8)
  | spawnFailed (command name : List UInt8)
  | spawned (child priority : Int) (name : List UInt8)
  | notSet (child : Int) (name : List UInt8)
  deriving DecidableEq

def NiceReport.text : NiceReport → List UInt8
  | .invalidArg => ascii "Error: Invalid arg.\n"
  | .argCount command => command ++ ascii " Error: Incorrect number of args.\n"
  | .invalidPid command =>
      command ++ ascii " Error: Invalid args. PID number should be a positive integer.\n"
  | .invalidPriority command =>
      command ++ ascii " Error: Invalid args. Priority should be an integer between 0 and 2.\n"
  | .invalidCommand name => ascii "Invalid command: " ++ name ++ ascii "\n"
  | .set pid priority =>
      ascii "Successfully set PID[" ++ printInt pid ++ ascii "] to priority " ++ printInt priority ++
        ascii ".\n"
  | .failed command => command ++ ascii " failed\n"
  | .spawnFailed command name =>
      command ++ ascii " Failed to spawn process for command: " ++ name ++ ascii "\n"
  | .spawned child priority name =>
      ascii "Command run as PID[" ++ printInt child ++ ascii "] and set to priority " ++
        printInt priority ++ ascii ": " ++ name ++ ascii "\n"
  | .notSet child name =>
      ascii "Command run as PID[" ++ printInt child ++ ascii "] but set priority failed: " ++ name ++
        ascii "\n"

/-- The check of the priority argument in both commands. -/
def readPriority (command word : List UInt8) : Except NiceReport Int :=
  match strToInt (some word) with
  | none => .error (.invalidPriority command)
  | some priority =>
      if priority < 0 ∨ 3 ≤ priority then .error (.invalidPriority command) else .ok priority

/-- The check of the PID argument of `u_nice_pid`. -/
def readPid (command word : List UInt8) : Except NiceReport Int :=
  match strToInt (some word) with
  | none => .error (.invalidPid command)
  | some pid => if pid ≤ 0 then .error (.invalidPid command) else .ok pid

/-- `u_nice_pid` up to its call of `s_nice`: the PID and the priority of the call. -/
def nicePidRequest : List (List UInt8) → Except NiceReport (Int × Int)
  | [] => .error .invalidArg
  | [command, priorityWord, pidWord] => do
      let pid ← readPid command pidWord
      let priority ← readPriority command priorityWord
      return (pid, priority)
  | command :: _ => .error (.argCount command)

/-- `u_nice` up to its call of `s_spawn`: the priority and the command. -/
def niceRequest : List (List UInt8) → Except NiceReport (Int × List UInt8)
  | [] => .error .invalidArg
  | command :: priorityWord :: name :: _ => do
      let priority ← readPriority command priorityWord
      match getFuncFromCmd name independentFuncs with
      | none => .error (.invalidCommand name)
      | some func => return (priority, func)
  | command :: _ => .error (.argCount command)

/-- `s_nice` -/
def sNice (self : PcbPtr) (pid priority : Int) : KernelM Int :=
  if priority < 0 ∨ 3 ≤ priority then return -1 else Kernel.kNice self pid priority

/-- `u_nice_pid` -/
def uNicePid (self : PcbPtr) (argv : List (List UInt8)) : KernelM NiceReport :=
  match nicePidRequest argv with
  | .error report => return report
  | .ok (pid, priority) => do
      if (← sNice self pid priority) = 0 then return .set pid priority
      else return .failed (argv.headD [])

/-- `u_nice`; `memory` and `thread` are the host's answers to `s_spawn`. -/
def uNice (memory thread : Bool) (self : PcbPtr) (argv : List (List UInt8)) : KernelM NiceReport :=
  match niceRequest argv with
  | .error report => return report
  | .ok (priority, func) => do
      let childPid ← Kernel.sSpawn memory thread self
      if childPid < 0 then return .spawnFailed (argv.headD []) func
      if (← sNice self childPid priority) = 0 then return .spawned childPid priority func
      else return .notSet childPid func

/-- `argv[pid_start_index]` where `kill_cmd` reads it. -/
def killWord : List (List UInt8) → Option (List UInt8)
  | _ :: first :: rest =>
      if first.head? = some minus then (optionSignal first).bind fun _ => rest.head? else some first
  | _ => none

/-- `kill` takes its word for the PID of a process, and the word is narrowed to it. -/
def KillMisreads (argv : List (List UInt8)) : Prop :=
  ∃ word pid, killWord argv = some word ∧ Narrowed word pid ∧ 0 < pid

/-- Both words pass their checks, and one of them is narrowed. -/
def NicePidMisreads (argv : List (List UInt8)) : Prop :=
  ∃ command priorityWord pidWord priority pid, argv = [command, priorityWord, pidWord] ∧
    (WrittenAs (some pidWord) pid ∨ Narrowed pidWord pid) ∧ 0 < pid ∧
    (WrittenAs (some priorityWord) priority ∨ Narrowed priorityWord priority) ∧
    0 ≤ priority ∧ priority < 3 ∧ (Narrowed pidWord pid ∨ Narrowed priorityWord priority)

/-- The priority word is narrowed to a priority, and the command exists. -/
def NiceMisreads (argv : List (List UInt8)) : Prop :=
  ∃ command priorityWord name rest priority, argv = command :: priorityWord :: name :: rest ∧
    name ∈ independentFuncs ∧ Narrowed priorityWord priority ∧ 0 ≤ priority ∧ priority < 3

variable {argv rest : List (List UInt8)} {command word name : List UInt8} {pid priority signal : Int}

section Requests

theorem strToInt_given {argument : Option (List UInt8)} : strToInt argument = some pid ↔
    ∃ word, argument = some word ∧ strToInt (some word) = some pid := by
  cases argument with
  | none => simp [strToInt]
  | some word => simp

theorem killPid_iff {word : Option (List UInt8)} {sent : Int} :
    killPid command word signal = .ok (pid, sent) ↔
      sent = signal ∧ strToInt word = some pid ∧ 0 < pid := by
  unfold killPid
  cases strToInt word with
  | none => simp
  | some read =>
      by_cases positive : read ≤ 0
      · simp only [positive, ↓reduceIte, reduceCtorEq, Option.some.injEq, false_iff]
        omega
      · simp only [positive, ↓reduceIte, Except.ok.injEq, Prod.mk.injEq, Option.some.injEq]
        omega

theorem readPid_iff : readPid command word = .ok pid ↔ strToInt (some word) = some pid ∧ 0 < pid := by
  unfold readPid
  cases strToInt (some word) with
  | none => simp
  | some read =>
      by_cases positive : read ≤ 0
      · simp only [positive, ↓reduceIte, reduceCtorEq, Option.some.injEq, false_iff]
        omega
      · simp only [positive, ↓reduceIte, Except.ok.injEq, Option.some.injEq]
        omega

theorem readPriority_iff : readPriority command word = .ok priority ↔
    strToInt (some word) = some priority ∧ 0 ≤ priority ∧ priority < 3 := by
  unfold readPriority
  cases strToInt (some word) with
  | none => simp
  | some read =>
      by_cases outside : read < 0 ∨ 3 ≤ read
      · simp only [outside, ↓reduceIte, reduceCtorEq, Option.some.injEq, false_iff]
        omega
      · simp only [outside, ↓reduceIte, Except.ok.injEq, Option.some.injEq]
        omega

/-- `kill` sends a signal exactly where its word passes `str_to_int` with a positive result. -/
theorem killRequest_iff : (∃ signal, killRequest argv = .ok (pid, signal)) ↔
    ∃ word, killWord argv = some word ∧ strToInt (some word) = some pid ∧ 0 < pid := by
  cases argv with
  | nil => simp [killRequest, killWord]
  | cons command rest =>
      cases rest with
      | nil => simp [killRequest, killWord]
      | cons first rest =>
          by_cases dash : first.head? = some minus
          · cases option : optionSignal first with
            | none => simp [killRequest, killWord, dash, option]
            | some signal =>
                have read : strToInt rest.head? = some pid ↔
                    ∃ word, rest.head? = some word ∧ strToInt (some word) = some pid := strToInt_given
                simp only [killRequest, dash, ↓reduceIte, option, killPid_iff, exists_eq_left, read,
                  killWord, Option.bind_some]
                constructor
                · rintro ⟨⟨word, isWord, accepted⟩, positive⟩
                  exact ⟨word, isWord, accepted, positive⟩
                · rintro ⟨word, isWord, accepted, positive⟩
                  exact ⟨⟨word, isWord, accepted⟩, positive⟩
          · simp [killRequest, killWord, dash, killPid_iff]

theorem bind_ok_iff {ε α β : Type} {x : Except ε α} {f : α → Except ε β} {b : β} :
    x >>= f = .ok b ↔ ∃ a, x = .ok a ∧ f a = .ok b := by
  cases x with
  | error e => simp [bind, Except.bind]
  | ok a => simp [bind, Except.bind]

theorem nicePidRequest_iff : nicePidRequest argv = .ok (pid, priority) ↔
    ∃ command priorityWord pidWord, argv = [command, priorityWord, pidWord] ∧
      (strToInt (some pidWord) = some pid ∧ 0 < pid) ∧
      strToInt (some priorityWord) = some priority ∧ 0 ≤ priority ∧ priority < 3 := by
  constructor
  · intro asked
    unfold nicePidRequest at asked
    split at asked
    · cases asked
    · next command priorityWord pidWord =>
        obtain ⟨_, readPid', asked⟩ := bind_ok_iff.mp asked
        obtain ⟨_, readPriority', asked⟩ := bind_ok_iff.mp asked
        cases asked
        exact ⟨command, priorityWord, pidWord, rfl, readPid_iff.mp readPid',
          readPriority_iff.mp readPriority'⟩
    · cases asked
  · rintro ⟨command, priorityWord, pidWord, rfl, ofPid, ofPriority⟩
    apply bind_ok_iff.mpr
    refine ⟨pid, readPid_iff.mpr ofPid, ?_⟩
    apply bind_ok_iff.mpr
    exact ⟨priority, readPriority_iff.mpr ofPriority, rfl⟩

theorem getFuncFromCmd_iff {func : List UInt8} {table : List (List UInt8)} :
    getFuncFromCmd name table = some func ↔ func = name ∧ name ∈ table := by
  unfold getFuncFromCmd
  constructor
  · intro found
    have same : func = name := by simpa using List.find?_some found
    exact ⟨same, same ▸ List.mem_of_find?_eq_some found⟩
  · rintro ⟨rfl, member⟩
    cases found : table.find? fun cmd => cmd = func with
    | none =>
        have differs := List.find?_eq_none.mp found func member
        exact absurd (decide_eq_true rfl) differs
    | some other =>
        have same : other = func := by simpa using List.find?_some found
        rw [same]

theorem niceRequest_iff {func : List UInt8} : niceRequest argv = .ok (priority, func) ↔
    ∃ command priorityWord rest, argv = command :: priorityWord :: func :: rest ∧
      func ∈ independentFuncs ∧
      strToInt (some priorityWord) = some priority ∧ 0 ≤ priority ∧ priority < 3 := by
  constructor
  · intro asked
    unfold niceRequest at asked
    split at asked
    · cases asked
    · next command priorityWord name rest =>
        obtain ⟨_, read, asked⟩ := bind_ok_iff.mp asked
        cases known : getFuncFromCmd name independentFuncs with
        | none =>
            rw [known] at asked
            cases asked
        | some found =>
            rw [known] at asked
            cases asked
            obtain ⟨rfl, member⟩ := getFuncFromCmd_iff.mp known
            exact ⟨command, priorityWord, rest, rfl, member, readPriority_iff.mp read⟩
    · cases asked
  · rintro ⟨command, priorityWord, rest, rfl, member, ofPriority⟩
    apply bind_ok_iff.mpr
    refine ⟨priority, readPriority_iff.mpr ofPriority, ?_⟩
    rw [getFuncFromCmd_iff.mpr ⟨rfl, member⟩]
    rfl

end Requests

section Exactness

/-- `kill` acts on the PID that is written, unless its word is narrowed to a PID. -/
theorem killRequest_exact (argv : List (List UInt8)) :
    (∀ pid signal, killRequest argv = .ok (pid, signal) → WrittenAs (killWord argv) pid) ↔
      ¬ KillMisreads argv := by
  constructor
  · rintro exact_ ⟨word, pid, isWord, narrowed, positive⟩
    have read := strToInt_iff.mpr (.inr narrowed)
    obtain ⟨signal, asked⟩ := killRequest_iff.mpr ⟨word, isWord, read, positive⟩
    exact narrowed.not_written (isWord ▸ exact_ pid signal asked)
  · intro sound pid signal asked
    obtain ⟨word, isWord, read, positive⟩ := killRequest_iff.mp ⟨signal, asked⟩
    rw [isWord]
    rcases strToInt_iff.mp read with written | narrowed
    · exact written
    · exact absurd ⟨word, pid, isWord, narrowed, positive⟩ sound

theorem nicePidRequest_exact (argv : List (List UInt8)) :
    (∀ pid priority, nicePidRequest argv = .ok (pid, priority) →
      WrittenAs argv[2]? pid ∧ WrittenAs argv[1]? priority) ↔ ¬ NicePidMisreads argv := by
  constructor
  · rintro exact_ ⟨command, priorityWord, pidWord, priority, pid, rfl, ofPid, positive, ofPriority,
      low, high, narrowed⟩
    have asked := nicePidRequest_iff.mpr ⟨command, priorityWord, pidWord, rfl,
      ⟨strToInt_iff.mpr ofPid, positive⟩, strToInt_iff.mpr ofPriority, low, high⟩
    obtain ⟨pidWritten, priorityWritten⟩ := exact_ pid priority asked
    rcases narrowed with narrowed | narrowed
    · exact narrowed.not_written pidWritten
    · exact narrowed.not_written priorityWritten
  · intro sound pid priority asked
    obtain ⟨command, priorityWord, pidWord, rfl, ⟨readPid', positive⟩, readPriority', low, high⟩ :=
      nicePidRequest_iff.mp asked
    have ofPid := strToInt_iff.mp readPid'
    have ofPriority := strToInt_iff.mp readPriority'
    have misreads : Narrowed pidWord pid ∨ Narrowed priorityWord priority → False := fun narrowed =>
      sound ⟨command, priorityWord, pidWord, priority, pid, rfl, ofPid, positive, ofPriority, low, high,
        narrowed⟩
    constructor
    · exact ofPid.resolve_right fun narrowed => misreads (.inl narrowed)
    · exact ofPriority.resolve_right fun narrowed => misreads (.inr narrowed)

theorem niceRequest_exact (argv : List (List UInt8)) :
    (∀ priority func, niceRequest argv = .ok (priority, func) → WrittenAs argv[1]? priority) ↔
      ¬ NiceMisreads argv := by
  constructor
  · rintro exact_ ⟨command, priorityWord, name, rest, priority, rfl, member, narrowed, low, high⟩
    have read := strToInt_iff.mpr (.inr narrowed)
    have asked := niceRequest_iff.mpr ⟨command, priorityWord, rest, rfl, member, read, low, high⟩
    exact narrowed.not_written (exact_ priority name asked)
  · intro sound priority func asked
    obtain ⟨command, priorityWord, rest, rfl, member, read, low, high⟩ := niceRequest_iff.mp asked
    rcases strToInt_iff.mp read with written | narrowed
    · exact written
    · exact absurd ⟨command, priorityWord, func, rest, priority, rfl, member, narrowed, low, high⟩ sound

/-- `str_to_int` gives the number written, except for the empty string and for numbers outside of
`int`; the three commands act on the numbers written, except where such a word passes their checks. -/
theorem numbers_exact (argument : Option (List UInt8)) (argv : List (List UInt8)) :
    ((∀ value, strToInt argument = some value → WrittenAs argument value) ↔
      ∀ word value, argument = some word → ¬ Narrowed word value) ∧
    ((∀ pid signal, killRequest argv = .ok (pid, signal) → WrittenAs (killWord argv) pid) ↔
      ¬ KillMisreads argv) ∧
    ((∀ pid priority, nicePidRequest argv = .ok (pid, priority) →
      WrittenAs argv[2]? pid ∧ WrittenAs argv[1]? priority) ↔ ¬ NicePidMisreads argv) ∧
    ((∀ priority func, niceRequest argv = .ok (priority, func) → WrittenAs argv[1]? priority) ↔
      ¬ NiceMisreads argv) :=
  ⟨strToInt_exact argument, killRequest_exact argv, nicePidRequest_exact argv, niceRequest_exact argv⟩

/-- `kill 4294967297` sends its signal to PID 1. -/
theorem kill_wraps :
    ¬ ((∀ argument value, strToInt argument = some value → WrittenAs argument value) ∧
      ∀ argv pid signal, killRequest argv = .ok (pid, signal) → WrittenAs (killWord argv) pid) := by
  intro always
  have asked : killRequest [ascii "kill", ascii "4294967297"] = .ok (1, pSigterm) := by decide +kernel
  have word : killWord [ascii "kill", ascii "4294967297"] = some (ascii "4294967297") := by
    decide +kernel
  obtain ⟨text, same, numeral, _⟩ := word ▸ always.2 _ 1 pSigterm asked
  obtain rfl := Option.some.inj same
  have value : leadingNumber (ascii "4294967297") = 4294967297 := by decide +kernel
  have one := numeral.leading
  omega

end Exactness

section Calls

open PennOs.Kernel (KernelState)

variable {self : PcbPtr} {s t : KernelState}

/-- `s_nice` lets the priorities pass that the commands let pass. -/
theorem sNice_eq (self : PcbPtr) (pid : Int) (low : 0 ≤ priority) (high : priority < 3) :
    sNice self pid priority = Kernel.kNice self pid priority :=
  if_neg (by omega)

/-- `kill` does nothing, or sends a signal to the PID written. -/
theorem killCmd_exact {report : KillReport} (sound : ¬ KillMisreads argv)
    (run : killCmd self argv s = some (report, t)) :
    t = s ∨ ∃ pid signal answer, WrittenAs (killWord argv) pid ∧ sKill self pid signal s =
      some (answer, t) := by
  unfold killCmd at run
  cases asked : killRequest argv with
  | error refused =>
      rw [asked] at run
      cases run
      exact .inl rfl
  | ok request =>
      obtain ⟨pid, signal⟩ := request
      rw [asked] at run
      obtain ⟨answer, u, called, rest⟩ := Prog.bind_inv run
      have written := (killRequest_exact argv).mpr sound pid signal asked
      have same : t = u := by
        split at rest <;> (cases rest; rfl)
      exact .inr ⟨pid, signal, answer, written, same ▸ called⟩

/-- `nice_pid` does nothing, or calls `k_nice` with the numbers written. -/
theorem uNicePid_exact {report : NiceReport} (sound : ¬ NicePidMisreads argv)
    (run : uNicePid self argv s = some (report, t)) :
    t = s ∨ ∃ pid priority answer, WrittenAs argv[2]? pid ∧ WrittenAs argv[1]? priority ∧
      Kernel.kNice self pid priority s = some (answer, t) := by
  unfold uNicePid at run
  cases asked : nicePidRequest argv with
  | error refused =>
      rw [asked] at run
      cases run
      exact .inl rfl
  | ok request =>
      obtain ⟨pid, priority⟩ := request
      rw [asked] at run
      obtain ⟨answer, u, called, rest⟩ := Prog.bind_inv run
      obtain ⟨_, _, _, _, _, _, low, high⟩ := nicePidRequest_iff.mp asked
      obtain ⟨written, written'⟩ := (nicePidRequest_exact argv).mpr sound pid priority asked
      have same : t = u := by
        split at rest <;> (cases rest; rfl)
      rw [sNice_eq self pid low high] at called
      exact .inr ⟨pid, priority, answer, written, written', same ▸ called⟩

/-- `nice` does nothing, or calls `s_spawn`, and `k_nice` with the new process and the priority written
where that succeeds. -/
theorem uNice_exact {memory thread : Bool} {report : NiceReport} (sound : ¬ NiceMisreads argv)
    (run : uNice memory thread self argv s = some (report, t)) :
    t = s ∨ ∃ child priority u, WrittenAs argv[1]? priority ∧
      Kernel.sSpawn memory thread self s = some (child, u) ∧
      (child < 0 ∧ t = u ∨ 0 ≤ child ∧ ∃ answer, Kernel.kNice self child priority u = some (answer, t)) := by
  unfold uNice at run
  cases asked : niceRequest argv with
  | error refused =>
      rw [asked] at run
      cases run
      exact .inl rfl
  | ok request =>
      obtain ⟨priority, func⟩ := request
      rw [asked] at run
      obtain ⟨child, u, spawned, rest⟩ := Prog.bind_inv run
      obtain ⟨_, _, _, _, _, _, low, high⟩ := niceRequest_iff.mp asked
      have written := (niceRequest_exact argv).mpr sound priority func asked
      refine .inr ⟨child, priority, u, written, spawned, ?_⟩
      split at rest
      · next failed =>
          cases rest
          exact .inl ⟨failed, rfl⟩
      · next succeeded =>
          obtain ⟨answer, v, called, rest⟩ := Prog.bind_inv rest
          rw [sNice_eq self child low high] at called
          have same : t = v := by
            split at rest <;> (cases rest; rfl)
          exact .inr ⟨by omega, answer, same ▸ called⟩

end Calls

end PennOs.Shell
