import Mathlib.Data.List.DropRight
import PennOs.Util.Parser

set_option autoImplicit false

/- The language of command lines: their tokens, which token lists are commands, and what these say. -/
namespace PennOs.Util

open PennOs.Shell (isSpace)

/-- A line as `strlen` sees it. -/
structure CommandLine where
  bytes : List UInt8
  noNul : ∀ c ∈ bytes, c ≠ 0
  ascii : ∀ c ∈ bytes, c < 128

def trim (text : List UInt8) : List UInt8 := (text.dropWhile isSpace).rdropWhile isSpace

/-- The line up to its first `#`, trimmed. -/
def lineBody (line : List UInt8) : List UInt8 := trim (line.takeWhile fun c => c ≠ hash)

/-- Whether the body ends with `&`. -/
def marked (body : List UInt8) : Bool := body.getLast? = some ampersand

/-- The body without its trailing `&`. -/
def unmarked (body : List UInt8) : List UInt8 := if marked body then trim body.dropLast else body

inductive Token where
  | word (bytes : List UInt8)
  | input
  | output
  | append
  | pipe
  | background
  deriving DecidableEq, Repr

namespace Token

def isWord : Token → Bool
  | .word _ => true
  | _ => false

def isOutput : Token → Bool
  | .output => true
  | .append => true
  | _ => false

def isRedirection : Token → Bool
  | .input => true
  | t => t.isOutput

@[simp] theorem isWord_word (bytes : List UInt8) : (word bytes).isWord = true := rfl

@[simp] theorem isOutput_eq : (∀ bytes, (word bytes).isOutput = false) ∧ input.isOutput = false ∧
    output.isOutput = true ∧ append.isOutput = true ∧ pipe.isOutput = false ∧
    background.isOutput = false := ⟨fun _ => rfl, rfl, rfl, rfl, rfl, rfl⟩

@[simp] theorem isRedirection_eq : (∀ bytes, (word bytes).isRedirection = false) ∧
    input.isRedirection = true ∧ output.isRedirection = true ∧ append.isRedirection = true ∧
    pipe.isRedirection = false ∧ background.isRedirection = false :=
  ⟨fun _ => rfl, rfl, rfl, rfl, rfl, rfl⟩

end Token

/-- Words are maximal runs of word bytes, and `>>` is one operator. -/
def tokens (text : List UInt8) : List Token :=
  match text with
  | [] => []
  | c :: rest =>
      if isSpace c then tokens rest
      else if c = ampersand then .background :: tokens rest
      else if c = less then .input :: tokens rest
      else if c = bar then .pipe :: tokens rest
      else if c = greater then
        if rest.head? = some greater then .append :: tokens rest.tail else .output :: tokens rest
      else .word (c :: rest.takeWhile isWordByte) :: tokens (rest.dropWhile isWordByte)
termination_by text.length
decreasing_by
  all_goals
    simp only [List.length_cons, List.length_tail]
    have shorter := (List.dropWhile_sublist isWordByte (l := rest)).length_le
    omega

/-- Every redirection has a word right behind it. -/
def Followed : List Token → Prop
  | [] => True
  | t :: rest => (t.isRedirection = true → rest.head?.any Token.isWord = true) ∧ Followed rest

/-- The words that are not targets of redirections. -/
def args : List Token → List (List UInt8)
  | [] => []
  | .word bytes :: rest => bytes :: args rest
  | .input :: .word _ :: rest => args rest
  | .output :: .word _ :: rest => args rest
  | .append :: .word _ :: rest => args rest
  | _ :: rest => args rest

def segments (ts : List Token) : List (List Token) := ts.splitOn .pipe

/-- The word behind `<`. -/
def inputFile : List Token → Option (List UInt8)
  | [] => none
  | .input :: .word bytes :: _ => some bytes
  | _ :: rest => inputFile rest

/-- The word behind `>` or `>>`. -/
def outputFile : List Token → Option (List UInt8)
  | [] => none
  | .output :: .word bytes :: _ => some bytes
  | .append :: .word bytes :: _ => some bytes
  | _ :: rest => outputFile rest

/-- The tokens of a command. -/
structure Accepted (ts : List Token) : Prop where
  noBackground : .background ∉ ts
  followed : Followed ts
  inputOnce : ts.count .input ≤ 1
  inputFirst : ts.Pairwise fun a b => ¬ (a = .pipe ∧ b = .input)
  outputOnce : ts.countP Token.isOutput ≤ 1
  outputLast : ts.Pairwise fun a b => ¬ (a.isOutput = true ∧ b = .pipe)
  filled : ∀ segment ∈ segments ts, args segment ≠ []

/-- The parse of a line whose body is not empty. -/
structure IsParse (body : List UInt8) (pcmd : ParsedCommand) : Prop where
  isBackground : pcmd.isBackground = marked body
  isFileAppend : pcmd.isFileAppend = decide (.append ∈ tokens (unmarked body))
  stdinFile : pcmd.stdinFile.map pcmd.str = inputFile (tokens (unmarked body))
  stdoutFile : pcmd.stdoutFile.map pcmd.str = outputFile (tokens (unmarked body))
  numCommands : pcmd.numCommands = (segments (tokens (unmarked body))).length
  commands : pcmd.commands.length = pcmd.numCommands
  argv : ∀ i, pcmd.argv i = ((segments (tokens (unmarked body)))[i]?).map args
  arguments : pcmd.arguments.length = pcmd.numCommands + (args (tokens (unmarked body))).length

theorem tokens_nil : tokens [] = [] := by rw [tokens]

section Tokens

variable {c : UInt8} {rest text : List UInt8}

theorem skipWord_eq (text : List UInt8) : skipWord text = text.dropWhile isWordByte := by
  induction text with
  | nil => rfl
  | cons c rest ih =>
      rw [skipWord, List.dropWhile_cons]
      split <;> simp_all

theorem skipSpace_eq (text : List UInt8) : skipSpace text = text.dropWhile isSpace := by
  induction text with
  | nil => rfl
  | cons c rest ih =>
      rw [skipSpace, List.dropWhile_cons]
      split <;> simp_all

theorem cutComment_eq (text : List UInt8) : cutComment text = text.takeWhile fun c => c ≠ hash := by
  induction text with
  | nil => rfl
  | cons c rest ih =>
      rw [cutComment, List.takeWhile_cons]
      split <;> simp_all

theorem trimEnd_eq (text : List UInt8) : trimEnd text = text.rdropWhile isSpace := by
  rw [trimEnd, skipSpace_eq, List.rdropWhile]

theorem tokens_space (space : isSpace c = true) : tokens (c :: rest) = tokens rest := by
  rw [tokens]
  simp only [space, ↓reduceIte]

theorem tokens_skipSpace (text : List UInt8) : tokens (skipSpace text) = tokens text := by
  induction text with
  | nil => rfl
  | cons c rest ih =>
      rw [skipSpace]
      split
      · rename_i space
        rw [ih, tokens_space space]
      · rfl

theorem tokens_ampersand : tokens (ampersand :: rest) = .background :: tokens rest := by
  rw [tokens]
  rfl

theorem tokens_less : tokens (less :: rest) = .input :: tokens rest := by
  rw [tokens]
  rfl

theorem tokens_bar : tokens (bar :: rest) = .pipe :: tokens rest := by
  rw [tokens]
  rfl

theorem tokens_greater : tokens (greater :: rest) =
    if rest.head? = some greater then .append :: tokens rest.tail else .output :: tokens rest := by
  rw [tokens]
  rfl

theorem tokens_word (wordByte : isWordByte c = true) :
    tokens (c :: rest) = .word (c :: rest.takeWhile isWordByte) :: tokens (skipWord rest) := by
  simp only [isWordByte, Bool.and_eq_true, decide_eq_true_eq, Bool.not_eq_true'] at wordByte
  obtain ⟨⟨⟨⟨notLess, notGreater⟩, notBar⟩, notAmpersand⟩, notSpace⟩ := wordByte
  rw [tokens, skipWord_eq]
  simp [notLess, notGreater, notBar, notAmpersand, notSpace]

/-- A byte that is none of the operators and no space belongs to a word. -/
theorem isWordByte_of (notSpace : isSpace c = false) (notAmpersand : c ≠ ampersand)
    (notLess : c ≠ less) (notGreater : c ≠ greater) (notBar : c ≠ bar) : isWordByte c = true := by
  simp [isWordByte, notSpace, notAmpersand, notLess, notGreater, notBar]

end Tokens

end PennOs.Util
