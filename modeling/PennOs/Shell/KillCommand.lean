import PennOs.Kernel.QueueFrames
import PennOs.Shell.Numbers

set_option autoImplicit false

/- The shell's `kill`, from its argument vector to `k_kill`. -/
namespace PennOs.Shell

open PennOs.Kernel (KernelM KernelState PcbPtr)

/- `pennos_signal.h`, the header that the shell is compiled with. -/
def pSigstop : Int := 0
def pSigcont : Int := 1
def pSigterm : Int := 2

/-- The bytes of an ASCII text. -/
def ascii (text : String) : List UInt8 := text.toList.map fun c => UInt8.ofNat c.toNat

/-- `%d` -/
def printInt (n : Int) : List UInt8 := if n < 0 then minus :: decimal n.natAbs else decimal n.natAbs

/-- What `kill_cmd` prints. -/
inductive KillReport where
  | invalidArg
  | argCount (command : List UInt8)
  | invalidOption (command option : List UInt8)
  | invalidPid (command : List UInt8) (word : Option (List UInt8))
  | sent (signal pid : Int)
  | failed (pid : Int)
  deriving DecidableEq

def KillReport.text : KillReport → List UInt8
  | .invalidArg => ascii "Error: Invalid arg.\n"
  | .argCount command => command ++ ascii " Error: Incorrect number of args.\n"
  | .invalidOption command option =>
      command ++ ascii " Error: Invalid arg: " ++ option ++ ascii ".\n"
  | .invalidPid command word =>
      command ++ ascii " Error: Invalid arg: " ++ word.getD (ascii "(null)") ++
        ascii ". PID number should be a positive integer.\n"
  | .sent signal pid =>
      ascii "Signal <" ++ printInt signal ++ ascii "> sent to PID [" ++ printInt pid ++ ascii "].\n"
  | .failed pid => ascii "Error sending signal to PID [" ++ printInt pid ++ ascii "].\n"

/-- The signal of an option. -/
def optionSignal (option : List UInt8) : Option Int :=
  if option = ascii "-cont" then some pSigcont
  else if option = ascii "-stop" then some pSigstop
  else if option = ascii "-term" then some pSigterm
  else none

/-- The end of `kill_cmd`: `word` is `argv[pid_start_index]`, and further words are not read. -/
def killPid (command : List UInt8) (word : Option (List UInt8)) (signal : Int) :
    Except KillReport (Int × Int) :=
  match strToInt word with
  | none => .error (.invalidPid command word)
  | some pid => if pid ≤ 0 then .error (.invalidPid command word) else .ok (pid, signal)

/-- `kill_cmd` up to its call of `s_kill`: the arguments of the call. -/
def killRequest : List (List UInt8) → Except KillReport (Int × Int)
  | [] => .error .invalidArg
  | [command] => .error (.argCount command)
  | command :: first :: rest =>
      if first.head? = some minus then
        match optionSignal first with
        | none => .error (.invalidOption command first)
        | some signal => killPid command rest.head? signal
      else killPid command (some first) pSigterm

/-- The calls of `k_kill` that `kill_cmd` makes. -/
def killCalls (argv : List (List UInt8)) : List (Int × Int) :=
  match killRequest argv with
  | .error _ => []
  | .ok call => [call]

/-- `s_kill`: `k_kill` fails where no PCB has the PID. -/
def sKill (self : PcbPtr) (pid signal : Int) : KernelM Int := do
  let target ← Kernel.pcbVecSeekPcbByPid pid
  Kernel.kKill self pid signal
  return if target.isSome then 0 else -1

/-- `kill_cmd` -/
def killCmd (self : PcbPtr) (argv : List (List UInt8)) : KernelM KillReport :=
  match killRequest argv with
  | .error report => return report
  | .ok (pid, signal) => do
      if (← sKill self pid signal) = 0 then return .sent signal pid else return .failed pid

/-- The forms of the command. -/
inductive KillForm where
  | plain | term | stop | cont
  deriving DecidableEq

namespace KillForm

/-- The option word. -/
def words : KillForm → List (List UInt8)
  | .plain => []
  | .term => [ascii "-term"]
  | .stop => [ascii "-stop"]
  | .cont => [ascii "-cont"]

/-- The signal of the form's name in `kernel_definition.h`. -/
def signal : KillForm → Int
  | .plain | .term => Kernel.pSigterm
  | .stop => Kernel.pSigstop
  | .cont => Kernel.pSigcont

/-- The signal of the form's name in `pennos_signal.h`. -/
def shellSignal : KillForm → Int
  | .plain | .term => pSigterm
  | .stop => pSigstop
  | .cont => pSigcont

end KillForm

/-- Each of the processes gets the signal, and nothing else is sent. -/
def Delivers (calls : List (Int × Int)) (pids : List Int) (signal : Int) : Prop :=
  ∀ call, call ∈ calls ↔ call.1 ∈ pids ∧ call.2 = signal

/-- The PID of a process that has not terminated. -/
def Alive (k : KernelState) (pid : Int) : Prop :=
  ∃ ptr ∈ k.allUnreapedPcbVector, ∃ pcb ∈ k.pcbs ptr, pcb.pid = pid ∧ pcb.status ≠ .zombie ∧
    pcb.status ≠ .reaped

variable {k k' : KernelState} {self : PcbPtr} {argv args : List (List UInt8)} {command : List UInt8}
  {pid signal : Int} {word : List UInt8}

section Calls

theorem killPid_ok {word : Option (List UInt8)} {call : Int × Int}
    (asked : killPid command word signal = .ok call) : call.2 = signal := by
  unfold killPid at asked
  split at asked
  · cases asked
  · split at asked
    · cases asked
    · cases asked
      rfl

/-- Whatever the words are, the signal is the one that the shell's header gives the form. -/
theorem killRequest_signal (form : KillForm) {call : Int × Int}
    (plain : form = .plain → ∀ word ∈ args.head?, word.head? ≠ some minus)
    (asked : killRequest (command :: form.words ++ args) = .ok call) : call.2 = form.shellSignal := by
  cases form with
  | plain =>
      cases args with
      | nil => cases asked
      | cons first rest =>
          have unsigned := plain rfl first rfl
          simp only [KillForm.words, List.cons_append, List.nil_append, killRequest, unsigned,
            ↓reduceIte] at asked
          exact killPid_ok asked
  | term | stop | cont => exact killPid_ok asked

/-- The first word is the only one that is read as a PID. -/
theorem killCalls_form (form : KillForm) (spelled : strToInt (some word) = some pid)
    (positive : 0 < pid) (unsigned : word.head? ≠ some minus) :
    killCalls (command :: form.words ++ word :: args) = [(pid, form.shellSignal)] := by
  have ok : ∀ signal, killPid command (some word) signal = .ok (pid, signal) := by
    intro signal
    simp only [killPid, spelled, Int.not_le.mpr positive, ↓reduceIte]
  cases form with
  | plain =>
      simp only [killCalls, KillForm.words, List.cons_append, List.nil_append, killRequest, unsigned,
        ↓reduceIte, ok]
      rfl
  | term | stop | cont =>
      have request : ∀ option signal, option.head? = some minus → optionSignal option = some signal →
          killRequest (command :: option :: word :: args) = .ok (pid, signal) := by
        intro option signal dash known
        simp only [killRequest, dash, ↓reduceIte, known, List.head?_cons, ok]
      simp only [killCalls, KillForm.words, List.cons_append, List.nil_append]
      rw [request _ _ rfl rfl]
      rfl

theorem mem_killCalls {call : Int × Int} (member : call ∈ killCalls argv) :
    killRequest argv = .ok call := by
  unfold killCalls at member
  split at member
  · exact absurd member List.not_mem_nil
  · next request => rw [List.mem_singleton.mp member, request]

end Calls

section Effects

/-- `k_kill` does nothing with a number that is none of its signals. -/
theorem kKill_other (run : Kernel.kKill self pid signal k = some ((), k'))
    (stop : signal ≠ Kernel.pSigstop) (cont : signal ≠ Kernel.pSigcont)
    (term : signal ≠ Kernel.pSigterm) : k' = k := by
  obtain ⟨_, k₁, called, run⟩ := Prog.bind_inv run
  obtain ⟨_, _, _, rfl⟩ := Kernel.asCaller_inv called
  obtain ⟨found, k₂, seek, run⟩ := Prog.bind_inv run
  obtain ⟨rfl, _⟩ := Kernel.pcbVecSeekPcbByPid_inv seek
  cases found with
  | none =>
      cases run
      rfl
  | some target =>
      obtain ⟨pcb, k₃, read, run⟩ := Prog.bind_inv run
      obtain ⟨_, rfl⟩ := Kernel.deref_inv read
      simp only [stop, cont, term, ↓reduceIte] at run
      cases run
      rfl

theorem sKill_inv {result : Int} (run : sKill self pid signal k = some (result, k')) :
    Kernel.kKill self pid signal k = some ((), k') := by
  obtain ⟨_, k₁, seek, run⟩ := Prog.bind_inv run
  obtain ⟨rfl, _⟩ := Kernel.pcbVecSeekPcbByPid_inv seek
  obtain ⟨_, k₂, killed, run⟩ := Prog.bind_inv run
  simp only [Prog.pure_run, Option.some.injEq, Prod.mk.injEq] at run
  rw [killed, run.2]

/-- `kill -stop` leaves every process as it is. -/
theorem killCmd_stop {report : KillReport}
    (run : killCmd self (command :: KillForm.stop.words ++ args) k = some (report, k')) : k' = k := by
  unfold killCmd at run
  cases asked : killRequest (command :: KillForm.stop.words ++ args) with
  | error other =>
      rw [asked] at run
      cases run
      rfl
  | ok call =>
      have signal := killRequest_signal .stop nofun asked
      rw [asked] at run
      obtain ⟨result, k₁, sent, ends⟩ := Prog.bind_inv run
      have zero : call.2 = 0 := signal
      obtain rfl : k₁ = k := kKill_other (sKill_inv sent) (by rw [zero]; decide)
        (by rw [zero]; decide) (by rw [zero]; decide)
      by_cases success : result = 0
      · rw [if_pos success] at ends
        cases ends
        rfl
      · rw [if_neg success] at ends
        cases ends
        rfl

/-- `kill -cont` stops the process, and `kill` and `kill -term` continue it. -/
theorem killCmd_form (form : KillForm) (spelled : strToInt (some word) = some pid) (positive : 0 < pid)
    (unsigned : word.head? ≠ some minus) :
    killCalls (command :: form.words ++ word :: args) = match form with
      | .stop => [(pid, 0)]
      | .cont => [(pid, Kernel.pSigstop)]
      | .plain | .term => [(pid, Kernel.pSigcont)] := by
  rw [killCalls_form form spelled positive unsigned]
  cases form <;> rfl

/-- The two headers give no signal of a form the same number. -/
theorem shellSignal_ne (form : KillForm) : form.shellSignal ≠ form.signal := by
  cases form <;> decide

/-- No form of `kill` delivers its signal, whichever processes are listed. -/
theorem kill_never_delivers (form : KillForm) (command : List UInt8) (pids : List Int)
    (args : List (List UInt8)) (nonempty : pids ≠ [])
    (unsigned : ∀ word ∈ args, word.head? ≠ some minus) :
    ¬ Delivers (killCalls (command :: form.words ++ args)) pids form.signal := by
  intro delivers
  obtain ⟨pid, rest, rfl⟩ := List.exists_cons_of_ne_nil nonempty
  have sent := (delivers (pid, form.signal)).mpr ⟨List.mem_cons_self, rfl⟩
  have plain : form = .plain → ∀ word ∈ args.head?, word.head? ≠ some minus :=
    fun _ word first => unsigned word (List.mem_of_mem_head? first)
  have number := killRequest_signal form plain (mem_killCalls sent)
  exact shellSignal_ne form number.symm

/-- A process is asked to stop. -/
theorem kill_never_delivers_stop :
    ¬ Delivers (killCalls [ascii "kill", ascii "-stop", decimal 3]) [3] Kernel.pSigstop :=
  kill_never_delivers .stop (ascii "kill") [3] [decimal 3] (by decide) fun word member => by
    obtain rfl := List.mem_singleton.mp member
    decide +kernel

/-- It gets the number 0, which is no signal of the kernel. -/
theorem kill_stop_not_delivered :
    ¬ ∀ (k : KernelState) (form : KillForm) (command : List UInt8) (pids : List Int), pids ≠ [] →
      (∀ pid ∈ pids, Alive k pid) →
      Delivers (killCalls (command :: form.words ++ pids.map fun pid => decimal pid.toNat)) pids
        form.signal := by
  intro delivers
  have alive : ∀ pid ∈ [(3 : Int)], Alive Kernel.processStarted pid := by
    intro pid member
    obtain rfl := List.mem_singleton.mp member
    have running : (Kernel.processStarted.pcbs 2).map (fun pcb => (pcb.pid, pcb.status)) =
        some (3, .running) := by decide +kernel
    obtain ⟨pcb, found, fields⟩ := Option.map_eq_some_iff.mp running
    obtain ⟨isPid, status⟩ := Prod.mk.inj fields
    exact ⟨2, by decide +kernel, pcb, found, isPid, by rw [status]; decide, by rw [status]; decide⟩
  have sent := (delivers Kernel.processStarted .stop (ascii "kill") [3] (by decide) alive
    (3, Kernel.pSigstop)).mpr ⟨List.mem_cons_self, rfl⟩
  have number := killRequest_signal .stop nofun (mem_killCalls sent)
  exact absurd number (by decide)

end Effects

end PennOs.Shell
