import PennOs.Lib.CutStrings
import PennOs.Shell.Numbers

set_option autoImplicit false

/- `parser.c`. A cursor into the command line is the list of the bytes from it up to `end`. -/
namespace PennOs.Util

open PennOs.Shell (isSpace)

/-- `'#'` -/
def hash : UInt8 := 35

/-- `'&'` -/
def ampersand : UInt8 := 38

/-- `'<'` -/
def less : UInt8 := 60

/-- `'>'` -/
def greater : UInt8 := 62

/-- `'|'` -/
def bar : UInt8 := 124

/-- What `skip_word` goes over. -/
def isWordByte (c : UInt8) : Bool :=
  c ≠ less && c ≠ greater && c ≠ bar && c ≠ ampersand && !isSpace c

def skipWord : List UInt8 → List UInt8
  | [] => []
  | c :: rest => if isWordByte c then skipWord rest else c :: rest

def skipSpace : List UInt8 → List UInt8
  | [] => []
  | c :: rest => if isSpace c then skipSpace rest else c :: rest

/-- The loop that moves `end` to the first `#`. -/
def cutComment : List UInt8 → List UInt8
  | [] => []
  | c :: rest => if c = hash then [] else c :: cutComment rest

/-- `while (start < end && isspace(end[-1])) --end` -/
def trimEnd (text : List UInt8) : List UInt8 := (skipSpace text.reverse).reverse

/-- `parser.h`; a failed allocation is the system call error. -/
inductive ParserError where
  | systemCall
  | unexpectedFileInput
  | unexpectedFileOutput
  | unexpectedPipeline
  | unexpectedAmpersand
  | expectInputFilename
  | expectOutputFilename
  | expectCommands
  deriving DecidableEq, Repr

/-- What `parse_command` returns for it. -/
def ParserError.code : ParserError → Int
  | .systemCall => -1
  | .unexpectedFileInput => 1
  | .unexpectedFileOutput => 2
  | .unexpectedPipeline => 3
  | .unexpectedAmpersand => 4
  | .expectInputFilename => 5
  | .expectOutputFilename => 6
  | .expectCommands => 7

/-- No error is taken for success, which is 0. -/
theorem ParserError.code_ne_zero (error : ParserError) : error.code ≠ 0 := by
  cases error <;> decide

/-- `struct parsed_command` with the two arrays behind it. A pointer to a string is its offset in
`string`, a pointer to an argv its offset in `arguments`. -/
structure ParsedCommand where
  isBackground : Bool
  isFileAppend : Bool
  stdinFile : Option Nat
  stdoutFile : Option Nat
  numCommands : Nat
  commands : List Nat
  arguments : List (Option Nat)
  string : List UInt8
  deriving DecidableEq, Repr

namespace ParsedCommand

/-- What `calloc` gives. -/
def zeroed : ParsedCommand := ⟨false, false, none, none, 0, [], [], []⟩

/-- The C string behind a pointer. -/
def str (pcmd : ParsedCommand) (pointer : Nat) : List UInt8 :=
  CutStrings.stringAt 0 pcmd.string pointer

/-- The pointers up to the first NULL; `none` where the array ends before one. -/
def untilNull : List (Option Nat) → Option (List Nat)
  | [] => none
  | none :: _ => some []
  | some pointer :: rest => (untilNull rest).map (pointer :: ·)

/-- The words of `commands[i]`; `none` where there is no such argv, or no NULL behind it. -/
def argv (pcmd : ParsedCommand) (i : Nat) : Option (List (List UInt8)) :=
  pcmd.commands[i]?.bind fun start =>
    (untilNull (pcmd.arguments.drop start)).map fun pointers => pointers.map pcmd.str

end ParsedCommand

/-- The answers of the allocator, and the byte that is left uninitialised behind the copied line. -/
structure Heap where
  calloc : Bool
  realloc : Bool
  fresh : UInt8

/-- The background step: the flag, and the text up to the new `end`. The `&` itself is written over
with a blank, behind `end`, where nothing reads it. -/
def takeBackground (text : List UInt8) : Bool × List UInt8 :=
  let scanned := trimEnd text
  if scanned.getLast? = some ampersand then (true, trimEnd scanned.dropLast) else (false, text)

/-- What the first pass keeps. `total_strings` is an `int`, which counts the words of any line of fewer than
`2 ^ 31` bytes. -/
structure FirstPass where
  numCommands : Nat
  isFileAppend : Bool
  totalStrings : Nat
  hasTokenLast : Bool
  hasFileInput : Bool
  hasFileOutput : Bool
  deriving DecidableEq, Repr

def FirstPass.start : FirstPass := ⟨0, false, 0, false, false, false⟩

/-- The `switch` of the first pass. -/
def firstTurn (pass : FirstPass) : List UInt8 → Except ParserError (FirstPass × List UInt8)
  | [] => .ok (pass, [])
  | c :: rest =>
      if c = ampersand then .error .unexpectedAmpersand
      else if c = less then
        if pass.numCommands > 0 ∨ pass.hasFileInput = true then .error .unexpectedFileInput
        else
          let cur := skipSpace rest
          let skipped := skipWord cur
          -- `skipped <= cur`
          if cur.length ≤ skipped.length then .error .expectInputFilename
          else .ok ({ pass with hasFileInput := true }, skipped)
      else if c = greater then
        if pass.hasFileOutput = true then .error .unexpectedFileOutput
        else
          let append := rest.head? = some greater
          let cur := skipSpace (if append then rest.tail else rest)
          let skipped := skipWord cur
          if cur.length ≤ skipped.length then .error .expectOutputFilename
          else
            .ok ({ pass with
              isFileAppend := if append then true else pass.isFileAppend
              hasFileOutput := true }, skipped)
      else if c = bar then
        if pass.hasFileOutput = true then .error .unexpectedFileOutput
        else if pass.hasTokenLast = false then .error .unexpectedPipeline
        else .ok ({ pass with hasTokenLast := false, numCommands := pass.numCommands + 1 }, rest)
      else
        .ok ({ pass with hasTokenLast := true, totalStrings := pass.totalStrings + 1 },
          skipWord (c :: rest))

/-- The loop of the first pass, with at most `fuel` bytes left; every turn takes one or more. -/
def firstLoop : Nat → FirstPass → List UInt8 → Except ParserError FirstPass
  | 0, pass, _ => .ok pass
  | _ + 1, pass, [] => .ok pass
  | fuel + 1, pass, c :: rest => do
      let (pass, cur) ← firstTurn pass (c :: rest)
      firstLoop fuel pass (skipSpace cur)

/-- What the second pass has stored. `cur_cmd` is the last of `commands`, and `argv_ptr` the end of
`arguments`. -/
structure SecondPass where
  stdinFile : Option Nat
  stdoutFile : Option Nat
  commands : List Nat
  arguments : List (Option Nat)
  string : List UInt8

/-- `cur - start` -/
def offset (text cur : List UInt8) : Nat := text.length - cur.length

/-- The `switch` of the second pass. -/
def secondTurn (append : Bool) (text : List UInt8) (pass : SecondPass) :
    List UInt8 → SecondPass × List UInt8
  | [] => (pass, [])
  | c :: rest =>
      if c = less then
        let name := skipSpace rest
        let cur := skipWord name
        ({ pass with
          stdinFile := some (offset text name)
          string := pass.string.set (offset text cur) 0 }, cur)
      else if c = greater then
        let name := skipSpace (if append then rest.tail else rest)
        let cur := skipWord name
        ({ pass with
          stdoutFile := some (offset text name)
          string := pass.string.set (offset text cur) 0 }, cur)
      else if c = bar then
        ({ pass with
          arguments := pass.arguments ++ [none]
          commands := pass.commands ++ [pass.arguments.length + 1] }, rest)
      else
        let cur := skipWord (c :: rest)
        ({ pass with
          arguments := pass.arguments ++ [some (offset text (c :: rest))]
          string := pass.string.set (offset text cur) 0 }, cur)

/-- The loop of the second pass; fuel as in the first. -/
def secondLoop (append : Bool) (text : List UInt8) : Nat → SecondPass → List UInt8 → SecondPass
  | 0, pass, _ => pass
  | _ + 1, pass, [] => pass
  | fuel + 1, pass, c :: rest =>
      let (pass, cur) := secondTurn append text pass (c :: rest)
      secondLoop append text fuel pass (skipSpace cur)

/-- `parse_command`: what `*result` points to, or the error. -/
def parseCommand (heap : Heap) (cmdLine : List UInt8) : Except ParserError ParsedCommand := do
  let text := trimEnd (skipSpace (cutComment cmdLine))
  if heap.calloc = false then throw .systemCall
  if text = [] then return .zeroed
  let (isBackground, text) := takeBackground text
  let pass ← firstLoop text.length .start text
  let pcmd := { ParsedCommand.zeroed with
    isBackground
    isFileAppend := pass.isFileAppend
    numCommands := pass.numCommands }
  if pass.totalStrings = 0 then
    if isBackground ∨ pass.hasFileInput ∨ pass.hasFileOutput then throw .expectCommands
    return pcmd
  if pass.hasTokenLast = false then throw .unexpectedPipeline
  if heap.realloc = false then throw .systemCall
  let stored := secondLoop pass.isFileAppend text text.length ⟨none, none, [0], [], text ++ [heap.fresh]⟩ text
  return { pcmd with
    numCommands := pass.numCommands + 1
    stdinFile := stored.stdinFile
    stdoutFile := stored.stdoutFile
    commands := stored.commands
    arguments := stored.arguments ++ [none]
    string := stored.string }

end PennOs.Util
