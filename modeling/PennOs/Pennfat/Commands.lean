import PennOs.Lib.StatePart
import PennOs.Fat.Listings
import PennOs.Util.Parser

set_option autoImplicit false

/- The program `pennfat`: its commands, and the loop that reads and runs them. -/
namespace PennOs.Fat

/-- The bytes of a host file. -/
def HostFile.text (f : HostFile) : List UInt8 := (List.range f.size).map f.bytes

/-- `fwrite` at the end of a host file. -/
def HostFile.append (f : HostFile) (data : List UInt8) : HostFile where
  bytes j := if j < f.size then f.bytes j else data[j - f.size]?.getD 0
  size := f.size + data.length

/-- A host file changes; the image at hand is one of them. -/
def Fs.saveHostFile (s : Fs) (name : List UInt8) (f : HostFile) : Fs :=
  if s.imageName = some name then { s with file := f.bytes, fileSize := f.size }
  else { s with hostFiles := Function.update s.hostFiles name (some f) }

end PennOs.Fat

namespace PennOs.Pennfat

open PennOs.Fat
open PennOs.Shell (ascii decimal minus printInt strtol truncateInt)
open PennOs.Util (Heap ParserError ParsedCommand parseCommand)

section Errors

def PennFatErr.code : PennFatErr → Int
  | .ok => 0
  | .internal => -1
  | .notMounted => -2
  | .invad => -3
  | .exist => -4
  | .perm => -5
  | .nospace => -7
  | .outofmem => -8
  | .unexpcmd => -9
  | .notempty => -10
  | .notdir => -12
  | .isdir => -13
  | .io => -14
  | .busy => -15
  | .range => -17

/-- `pennFatErrStrings` -/
def pennFatErrStrings : List String :=
  ["Dummy error", "Range error", "Not implemented", "Resource busy", "I/O error", "Is a directory",
    "Not a directory", "Directory not empty", "Unexpected command", "Out of memory",
    "No space left on device", "File in use", "Permission denied", "File existance error",
    "Invalid argument", "File system not mounted", "Internal error", "Success", "Success"]

/-- `PennFatErr_toErrString` -/
def toErrString (err : PennFatErr) : List UInt8 :=
  let index := PennFatErr.code err + 18
  if 0 ≤ index ∧ index < 19 then ascii (pennFatErrStrings[index.toNat]?.getD "") else ascii "Unknown error"

/-- There is no code -11 and the table has no gap, so the text of -1 is one of the two for success. -/
theorem toErrString_success_iff (err : PennFatErr) :
    toErrString err = ascii "Success" ↔ err = .ok ∨ err = .internal := by
  cases err <;> decide

end Errors

/-- The program with its standard streams. `writable` tells which host files may be opened to write. -/
structure Session where
  fs : Fs
  clock : Nat → UInt64
  ticks : Nat
  stdin : List UInt8
  stdout : List UInt8
  stderr : List UInt8
  writable : List UInt8 → Bool

abbrev SessionM := Prog Session

def fsPart : StatePart Session Fs where
  read s := s.fs
  write fs s := { s with fs := fs }
  read_write _ _ := rfl

/-- A call of the kernel module. -/
def call {α : Type} (p : FsM α) : SessionM α := p.on fsPart

/-- A call that asks for the time. -/
def timed {α : Type} (p : UInt64 → FsM α) : SessionM α := do
  let s ← Prog.get
  Prog.modify fun t => { t with ticks := t.ticks + 1 }
  call (p (s.clock s.ticks))

section Streams

def printOut (text : List UInt8) : SessionM Unit := Prog.modify fun s => { s with stdout := s.stdout ++ text }

def printErr (text : List UInt8) : SessionM Unit := Prog.modify fun s => { s with stderr := s.stderr ++ text }

/-- The bytes of a line, its end included, and no more than `count`. -/
def lineOf : Nat → List UInt8 → List UInt8
  | 0, _ => []
  | _ + 1, [] => []
  | count + 1, c :: rest => if c = 10 then [c] else c :: lineOf count rest

/-- `fgets(buf, size, stdin)`: `none` at the end of the input. -/
def fgets (size : Nat) : SessionM (Option (List UInt8)) := do
  let s ← Prog.get
  if s.stdin = [] then return none
  let line := lineOf (size - 1) s.stdin
  Prog.modify fun t => { t with stdin := t.stdin.drop line.length }
  return some line

/-- `"... '%s'\n"` -/
def quoting (before : String) (name : CStr) : List UInt8 := ascii before ++ name.bytes ++ ascii "'\n"

/-- `"<what>: %s\n"` when a call failed. -/
def reportFailure (what : List UInt8) (status : PennFatErr) : SessionM Unit :=
  if status = .ok then return () else printErr (what ++ ascii ": " ++ toErrString status ++ ascii "\n")

end Streams

def bufSize : Nat := 4096

def maxCmdLength : Nat := 1024

def oCreate : UInt32 := 0x1
def oRdonly : UInt32 := 0x2
def oWronly : UInt32 := 0x4
def oAppend : UInt32 := 0x8

/-- More turns than a copy loop can take: each but the last reads a byte of a file. -/
def copyFuel : Nat := 2 ^ 32

def bufferOf (bytes : List UInt8) : Buffer := fun j => bytes[j]?.getD 0

section Cat

/-- `write_buffer`; `none` is the descriptor -1. -/
def writeBuffer (outFd : Option Nat) (buf : List UInt8) : SessionM PennFatErr := do
  match outFd with
  | some fd =>
      match ← timed fun now => kWrite now fd (bufferOf buf) buf.length with
      | .error err => return err
      | .ok count => return if count = buf.length then .ok else .internal
  | none =>
      printOut buf
      return .ok

/-- What the option loop of `cat` finds. -/
structure CatArgs where
  overwriteMode : Bool
  appendMode : Bool
  outputFile : Option CStr
  inputFiles : List CStr

/-- The option loop of `cat`, or the message it ends with. -/
def catArgs : List CStr → CatArgs → Except (List UInt8) CatArgs
  | [], found => .ok found
  | arg :: rest, found =>
      if arg.bytes = ascii "-w" then
        if found.overwriteMode || found.appendMode then
          .error (ascii "cat: multiple output mode flags specified\n")
        else
          match rest with
          | [] => .error (ascii "cat: missing output file after -w\n")
          | file :: rest => catArgs rest { found with overwriteMode := true, outputFile := some file }
      else if arg.bytes = ascii "-a" then
        if found.overwriteMode || found.appendMode then
          .error (ascii "cat: multiple output mode flags specified\n")
        else
          match rest with
          | [] => .error (ascii "cat: missing output file after -a\n")
          | file :: rest => catArgs rest { found with appendMode := true, outputFile := some file }
      else if found.inputFiles.length < 32 then
        catArgs rest { found with inputFiles := found.inputFiles ++ [arg] }
      else .error (ascii "cat: too many input files\n")

/-- The output file of `cat`; `none` where it gives up. -/
def openOutput (found : CatArgs) : SessionM (Option (Option Nat)) := do
  match found.outputFile with
  | none => return some none
  | some file =>
      let openFlags := if found.overwriteMode then oCreate ||| oWronly else oCreate ||| oAppend
      match ← timed fun now => kOpen now file.bytes openFlags with
      | .error err =>
          printErr (ascii "cat: error opening '" ++ file.bytes ++ ascii "': " ++ toErrString err ++ ascii "\n")
          return none
      | .ok fd =>
          if !found.appendMode then return some (some fd)
          match ← call (kLseek fd 0 2) with
          | .ok _ => return some (some fd)
          | .error err =>
              printErr (ascii "cat: error seeking end of '" ++ file.bytes ++ ascii "': " ++ toErrString err ++
                ascii "\n")
              let _ ← call (kClose fd)
              return none

/-- The branch of `cat` without input files. -/
def catStdin (outFd : Option Nat) : SessionM Unit := do
  match ← fgets bufSize with
  | none => return ()
  | some line =>
      let err ← writeBuffer outFd (line.takeWhile (· != 0))
      if err ≠ .ok then printErr (ascii "cat: error writing output\n")

/-- The loop over an input file. -/
def catLoop (file : CStr) (inFd : Nat) (outFd : Option Nat) : Nat → SessionM Unit
  | 0 => Prog.fault
  | fuel + 1 => do
      match ← call (kRead inFd bufSize) with
      | .error _ => printErr (quoting "cat: read error in '" file)
      | .ok bytes =>
          if bytes = [] then return ()
          let err ← writeBuffer outFd bytes
          if err ≠ .ok then printErr (quoting "cat: error writing output for '" file)
          else catLoop file inFd outFd fuel

def catFile (outFd : Option Nat) (file : CStr) : SessionM Unit := do
  match ← timed fun now => kOpen now file.bytes oRdonly with
  | .error _ => printErr (quoting "cat: error opening '" file)
  | .ok inFd =>
      catLoop file inFd outFd copyFuel
      let _ ← call (kClose inFd)
      return ()

def catFiles (outFd : Option Nat) : List CStr → SessionM Unit
  | [] => return ()
  | file :: rest => do
      catFile outFd file
      catFiles outFd rest

/-- The part of `cat` between the opening and the closing of the output file. -/
def catInputs (found : CatArgs) (outFd : Option Nat) : SessionM Unit :=
  if found.inputFiles = [] then catStdin outFd else catFiles outFd found.inputFiles

/-- `cat` -/
def cat (args : List CStr) : SessionM Unit := do
  match catArgs args ⟨false, false, none, []⟩ with
  | .error message => printErr message
  | .ok found =>
      match ← openOutput found with
      | none => return ()
      | some none => catInputs found none
      | some (some fd) =>
          catInputs found (some fd)
          let _ ← call (kClose fd)
          return ()

end Cat

section Cp

/-- The uses of `cp`. -/
inductive CpArgs where
  | fromHost (src dest : CStr)
  | toHost (src dest : CStr)
  | inside (src dest : CStr)

/-- The option checks of `cp`, or its message and result. -/
def cpArgs : List CStr → Except (List UInt8 × PennFatErr) CpArgs
  | [src, dest] => .ok (.inside src dest)
  | [first, second, third] =>
      if first.bytes = ascii "-h" then .ok (.fromHost second third)
      else if second.bytes = ascii "-h" then .ok (.toHost first third)
      else .error (ascii "cp: invalid flag usage. Use '-h' as the first argument to read from host or as the second to write to host.\n", .invad)
  | _ => .error (ascii "Usage:\n  cp [ -h ] SOURCE DEST\n  cp SOURCE -h DEST\n", .internal)

/-- The loop that writes a host file into a file; `pos` is where the next `fread` starts. -/
def fromHostLoop (src dest : CStr) (destFd : Nat) : Nat → Nat → SessionM PennFatErr
  | 0, _ => Prog.fault
  | fuel + 1, pos => do
      let s ← Prog.get
      let buffer := (((s.fs.hostFile src.bytes).getD .empty).text.drop pos).take bufSize
      if buffer = [] then return .ok
      match ← timed fun now => kWrite now destFd (bufferOf buffer) buffer.length with
      | .error err =>
          printErr (quoting "cp: error writing to '" dest)
          return err
      | .ok count =>
          if count ≠ buffer.length then
            printErr (quoting "cp: error writing to '" dest)
            return .internal
          fromHostLoop src dest destFd fuel (pos + buffer.length)

/-- The branch of `cp` for a source on the host. -/
def cpFromHost (src dest : CStr) : SessionM PennFatErr := do
  let s ← Prog.get
  if !s.fs.opens false src.bytes then
    printErr (quoting "cp: error opening host source file '" src)
    return .internal
  match ← timed fun now => kOpen now dest.bytes (oCreate ||| oWronly) with
  | .error err =>
      printErr (quoting "cp: error opening destination file '" dest)
      return err
  | .ok destFd =>
      let ret ← fromHostLoop src dest destFd copyFuel 0
      let _ ← call (kClose destFd)
      return ret

/-- `fwrite` to a host file. -/
def hostAppend (name bytes : List UInt8) : SessionM Unit :=
  Prog.modify fun s =>
    { s with fs := s.fs.saveHostFile name (((s.fs.hostFile name).getD .empty).append bytes) }

def toHostLoop (src dest : CStr) (srcFd : Nat) : Nat → SessionM PennFatErr
  | 0 => Prog.fault
  | fuel + 1 => do
      match ← call (kRead srcFd bufSize) with
      | .error err =>
          printErr (quoting "cp: error reading from '" src)
          return err
      | .ok bytes =>
          if bytes = [] then return .ok
          hostAppend dest.bytes bytes
          toHostLoop src dest srcFd fuel

/-- The branch of `cp` for a destination on the host. -/
def cpToHost (src dest : CStr) : SessionM PennFatErr := do
  match ← timed fun now => kOpen now src.bytes oRdonly with
  | .error err =>
      printErr (quoting "cp: error opening source file '" src)
      return err
  | .ok srcFd =>
      let s ← Prog.get
      if !s.writable dest.bytes then
        printErr (quoting "cp: error opening host destination file '" dest)
        let _ ← call (kClose srcFd)
        return .internal
      Prog.modify fun t => { t with fs := t.fs.saveHostFile dest.bytes .empty }
      let ret ← toHostLoop src dest srcFd copyFuel
      let _ ← call (kClose srcFd)
      return ret

def insideLoop (src dest : CStr) (srcFd destFd : Nat) : Nat → SessionM PennFatErr
  | 0 => Prog.fault
  | fuel + 1 => do
      match ← call (kRead srcFd bufSize) with
      | .error err =>
          printErr (quoting "cp: error reading from '" src)
          return err
      | .ok bytes =>
          if bytes = [] then return .ok
          match ← timed fun now => kWrite now destFd (bufferOf bytes) bytes.length with
          | .error err =>
              printErr (quoting "cp: error writing to '" dest)
              return err
          | .ok count =>
              if count ≠ bytes.length then
                printErr (quoting "cp: error writing to '" dest)
                return .internal
              insideLoop src dest srcFd destFd fuel

/-- The branch of `cp` inside the file system. -/
def cpInside (src dest : CStr) : SessionM PennFatErr := do
  match ← timed fun now => kOpen now src.bytes oRdonly with
  | .error err =>
      printErr (quoting "cp: error opening source file '" src)
      return err
  | .ok srcFd =>
      match ← timed fun now => kOpen now dest.bytes (oCreate ||| oWronly) with
      | .error err =>
          printErr (quoting "cp: error opening destination file '" dest)
          let _ ← call (kClose srcFd)
          return err
      | .ok destFd =>
          let ret ← insideLoop src dest srcFd destFd copyFuel
          let _ ← call (kClose srcFd)
          let _ ← call (kClose destFd)
          return ret

/-- `cp` -/
def cp (args : List CStr) : SessionM PennFatErr := do
  match cpArgs args with
  | .error (message, err) =>
      printErr message
      return err
  | .ok (.fromHost src dest) => cpFromHost src dest
  | .ok (.toHost src dest) => cpToHost src dest
  | .ok (.inside src dest) => cpInside src dest

end Cp

section Others

/-- `mount`; `open` fails on a NULL. -/
def mount : Option CStr → SessionM PennFatErr
  | none => do
      let s ← Prog.get
      return if s.fs.gMounted then .unexpcmd else .internal
  | some fsName => call (kMount fsName.bytes)

def unmount : SessionM PennFatErr := call kUnmount

def mkfs (fsName : CStr) (blocksInFat blockSizeConfig : Int) : SessionM PennFatErr :=
  call (kMkfs fsName.bytes blocksInFat blockSizeConfig)

def touch : List CStr → SessionM Unit
  | [] => return ()
  | file :: rest => do
      let status ← timed fun now => kTouch now file.bytes
      reportFailure (ascii "touch failed for " ++ file.bytes) status
      touch rest

def mv (oldname newname : CStr) : SessionM PennFatErr :=
  timed fun now => kRename now oldname.bytes newname.bytes

def rm : List CStr → SessionM Unit
  | [] => return ()
  | file :: rest => do
      let status ← timed fun now => kUnlink now file.bytes
      reportFailure (ascii "Error removing " ++ file.bytes) status
      rm rest

/-- The permission strings of `chmod`. -/
def permOf (permStr : List UInt8) : Option UInt8 :=
  if permStr = ascii "r" then some 4
  else if permStr = ascii "w" then some 2
  else if permStr = ascii "x" then some 1
  else if permStr = ascii "rw" then some 6
  else if permStr = ascii "rx" then some 5
  else if permStr = ascii "wx" then some 3
  else if permStr = ascii "rwx" then some 7
  else none

def chmod (permStr fname : CStr) : SessionM PennFatErr := do
  match permOf permStr.bytes with
  | none =>
      printErr (ascii "Invalid permission string: " ++ permStr.bytes ++ ascii "\n")
      return .invad
  | some perm => timed fun now => kChmod now fname.bytes perm

/-- The option loop of `ls`, or the message it ends with. -/
def lsArgs : List CStr → Bool → Option CStr → Except (List UInt8) (Bool × Option CStr)
  | [], longFormat, target => .ok (longFormat, target)
  | arg :: rest, longFormat, target =>
      if arg.bytes = ascii "-l" then lsArgs rest true target
      else if arg.bytes.head? = some minus then .error (quoting "ls: invalid option '" arg)
      else if target.isSome then .error (ascii "ls: too many arguments\n")
      else lsArgs rest longFormat (some arg)

def ls (timeStr : UInt64 → List UInt8) (args : List CStr) : SessionM Unit := do
  match lsArgs args false none with
  | .error message => printErr message
  | .ok (longFormat, target) =>
      let path := (target.map CStr.bytes).getD []
      let printed ← timed fun now =>
        if longFormat then kLsLong timeStr now path else kLs timeStr now path
      printOut printed.stdout
      printErr printed.stderr
      reportFailure (ascii "ls failed") printed.code

/-- `atoi` -/
def atoi (str : List UInt8) : Int := truncateInt (strtol str).1

def runMkfs (fsName blocks config : CStr) : SessionM Unit := do
  let blocksInFat := atoi blocks.bytes
  let blockSizeConfig := atoi config.bytes
  if blocksInFat < 1 ∨ 32 < blocksInFat then
    printErr (ascii "Invalid number of blocks in FAT: " ++ printInt blocksInFat ++ ascii "\n")
  else if blockSizeConfig < 0 ∨ 4 < blockSizeConfig then
    printErr (ascii "Invalid block size configuration: " ++ printInt blockSizeConfig ++ ascii "\n")
  else
    let status ← mkfs fsName blocksInFat blockSizeConfig
    reportFailure (ascii "mkfs failed") status

end Others

section Main

/-- The body of the loop of `main` behind the parser: `name` is `args[0]`. -/
def execCommand (timeStr : UInt64 → List UInt8) (name : CStr) (args : List CStr) : SessionM Unit := do
  if name.bytes = ascii "mount" then
    let status ← mount args.head?
    reportFailure (ascii "mount failed") status
  else if name.bytes = ascii "unmount" then
    let status ← unmount
    reportFailure (ascii "unmount failed") status
  else if name.bytes = ascii "mkfs" then
    match args with
    | fsName :: blocks :: config :: _ => runMkfs fsName blocks config
    | _ => printErr (ascii "mkfs: missing arguments\n")
  else if name.bytes = ascii "ls" then ls timeStr args
  else if name.bytes = ascii "touch" then
    if args = [] then printErr (ascii "touch: missing arguments\n") else touch args
  else if name.bytes = ascii "mv" then
    match args with
    | oldname :: newname :: _ =>
        let status ← mv oldname newname
        reportFailure (ascii "Error renaming " ++ oldname.bytes ++ ascii " to " ++ newname.bytes) status
    | _ => printErr (ascii "mv: missing arguments\n")
  else if name.bytes = ascii "rm" then
    if args = [] then printErr (ascii "rm: missing arguments\n") else rm args
  else if name.bytes = ascii "chmod" then
    match args with
    | permStr :: fname :: _ =>
        let status ← chmod permStr fname
        reportFailure (ascii "chmod failed") status
    | _ => printErr (ascii "chmod: missing arguments\n")
  else if name.bytes = ascii "cat" then
    if args = [] then printErr (ascii "cat: missing arguments\n") else cat args
  else if name.bytes = ascii "cp" then
    match args with
    | _ :: _ :: _ =>
        let status ← cp args
        reportFailure (ascii "cp failed") status
    | _ => printErr (ascii "cp: missing arguments\n")
  else printErr (ascii "pennfat: command not found: " ++ name.bytes ++ ascii "\n")

/-- `print_parser_errcode` -/
def parserErrText : ParserError → List UInt8
  | .unexpectedFileInput => ascii "UNEXPECTED INPUT REDIRECTION TO A FILE\n"
  | .unexpectedFileOutput => ascii "UNEXPECTED OUTPUT REDIRECTION TO A FILE\n"
  | .unexpectedPipeline => ascii "UNEXPECTED PIPE\n"
  | .unexpectedAmpersand => ascii "UNEXPECTED AMPERESAND\n"
  | .expectInputFilename => ascii "COULD NOT FINE FILENAME FOR INPUT REDIRECTION \"<\"\n"
  | .expectOutputFilename => ascii "COULD NOT FIND FILENAME FOR OUTPUT REDIRECTION \"<\"\n"
  | .expectCommands => ascii "COULD NOT FIND ANY COMMANDS OR ARGS\n"
  | .systemCall => []

/-- How a turn of the loop of `main` ends. -/
inductive Turn where
  | again
  | endOfInput
  | exitFailure
  deriving DecidableEq, Repr

/-- A parsed line is carried out. -/
def execParsed (timeStr : UInt64 → List UInt8) (cmd : ParsedCommand) : SessionM Unit :=
  if cmd.numCommands ≠ 1 then printErr (ascii "Unknown command\n")
  else
    match cmd.argv 0 with
    | some (name :: args) => execCommand timeStr (.literal name) (args.map .literal)
    | _ => printErr (ascii "Unknown command\n")

/-- A turn of the loop of `main`, with `safe_parse_command`. -/
def mainTurn (heap : Heap) (timeStr : UInt64 → List UInt8) : SessionM Turn := do
  printOut (ascii "pennfat# ")
  match ← fgets maxCmdLength with
  | none => return .endOfInput
  | some buf =>
      let line := buf.takeWhile (· != 0)
      if line = [] then return .again
      match parseCommand heap line with
      | .error .systemCall =>
          printErr (ascii "!!!parse_command error!!!: Cannot allocate memory\n")
          return .exitFailure
      | .error err =>
          printOut (ascii "Invalid Input:" ++ parserErrText err)
          return .again
      | .ok cmd =>
          execParsed timeStr cmd
          return .again

/-- `pennfat_kernel_cleanup` -/
def pennfatKernelCleanup : SessionM Unit := do
  let s ← Prog.get
  if s.fs.gMounted then
    let _ ← unmount
  printOut (ascii "PennFAT kernel module cleaned up.\n")

/-- Up to `turns` turns of the loop of `main`, and the cleanup behind it. -/
def mainLoop (heap : Heap) (timeStr : UInt64 → List UInt8) : Nat → SessionM Turn
  | 0 => return .again
  | turns + 1 => do
      match ← mainTurn heap timeStr with
      | .again => mainLoop heap timeStr turns
      | .endOfInput =>
          pennfatKernelCleanup
          return .endOfInput
      | .exitFailure => return .exitFailure

end Main

end PennOs.Pennfat
