import PennOs.Util.ParserGrammar

set_option autoImplicit false

/- `print_parsed_command`: what it writes for a parsed command, and that this is a command line with
the same parse. -/
namespace PennOs.Util

open PennOs.Shell (isSpace)

/-- `' '` -/
def blank : UInt8 := 32

/-- `'\n'` -/
def newline : UInt8 := 10

/-- `"%s "` -/
def spaced (word : List UInt8) : List UInt8 := word ++ [blank]

/-- `"< %s "`, where there is a file. -/
def printInput : Option (List UInt8) → List UInt8
  | none => []
  | some name => less :: blank :: spaced name

/-- `">> %s "` or `"> %s "`, where there is a file. -/
def printOutput (append : Bool) : Option (List UInt8) → List UInt8
  | none => []
  | some name =>
      if append then greater :: greater :: blank :: spaced name else greater :: blank :: spaced name

namespace ParsedCommand

/-- A turn of the loop of `print_parsed_command`; `none` where it reads past the arrays. -/
def printStage (cmd : ParsedCommand) (i : Nat) : Option (List UInt8) := do
  let arguments ← cmd.argv i
  let stdin := if i = 0 then printInput (cmd.stdinFile.map cmd.str) else []
  let last :=
    if i = cmd.numCommands - 1 then printOutput cmd.isFileAppend (cmd.stdoutFile.map cmd.str)
    else [bar, blank]
  return arguments.flatMap spaced ++ (stdin ++ last)

/-- The turns from `i` on. -/
def printLoop (cmd : ParsedCommand) : Nat → Nat → Option (List UInt8)
  | 0, _ => some []
  | count + 1, i => do
      let stage ← cmd.printStage i
      let rest ← cmd.printLoop count (i + 1)
      return stage ++ rest

/-- What `print_parsed_command` writes. -/
def printParsedCommand (cmd : ParsedCommand) : Option (List UInt8) := do
  let stages ← cmd.printLoop cmd.numCommands 0
  return stages ++ (if cmd.isBackground then [ampersand] else []) ++ [newline]

/-- Two results of the parser that say the same, wherever their strings lie. -/
structure SameCommand (a b : ParsedCommand) : Prop where
  isBackground : a.isBackground = b.isBackground
  isFileAppend : a.isFileAppend = b.isFileAppend
  stdinFile : a.stdinFile.map a.str = b.stdinFile.map b.str
  stdoutFile : a.stdoutFile.map a.str = b.stdoutFile.map b.str
  numCommands : a.numCommands = b.numCommands
  argv : ∀ i, a.argv i = b.argv i

end ParsedCommand

/-- A word that can stand in a command line. -/
structure Plain (word : List UInt8) : Prop where
  some_ : word ≠ []
  bytes : ∀ c ∈ word, isWordByte c = true
  clean : ∀ c ∈ word, c ≠ 0 ∧ c ≠ hash

/-- A text without terminator, comment or `&`. -/
def Clean (text : List UInt8) : Prop := ∀ c ∈ text, c ≠ 0 ∧ c ≠ hash ∧ c ≠ ampersand

def inputTokens : Option (List UInt8) → List Token
  | none => []
  | some name => [.input, .word name]

def outputTokens (append : Bool) : Option (List UInt8) → List Token
  | none => []
  | some name => [if append then .append else .output, .word name]

/-- The tokens of the printed stages: words first, then the redirections. -/
def printedTokens (append : Bool) (output : Option (List UInt8)) :
    Option (List UInt8) → List (List (List UInt8)) → List Token
  | _, [] => []
  | input, [words] => words.map .word ++ (inputTokens input ++ outputTokens append output)
  | input, words :: next :: later =>
      words.map .word ++ (inputTokens input ++ .pipe :: printedTokens append output none (next :: later))

variable {c : UInt8} {word text front rest line : List UInt8} {words : List (List UInt8)}
  {stages : List (List (List UInt8))} {input output : Option (List UInt8)} {append : Bool}
  {ts : List Token} {heap : Heap} {cmd pcmd : ParsedCommand}

section Tokens

theorem isWordByte_space (space : isSpace c = true) : isWordByte c = false := by
  simp [isWordByte, space]

theorem takeWhile_stops (front rest : List UInt8) (other : isWordByte c = false) :
    (front ++ c :: rest).takeWhile isWordByte = front.takeWhile isWordByte := by
  induction front with
  | nil => rw [List.nil_append, List.takeWhile_cons_of_neg (by simp [other]), List.takeWhile_nil]
  | cons d front ih =>
      rw [List.cons_append, List.takeWhile_cons, List.takeWhile_cons, ih]

theorem dropWhile_stops (front rest : List UInt8) (other : isWordByte c = false) :
    (front ++ c :: rest).dropWhile isWordByte = front.dropWhile isWordByte ++ c :: rest := by
  induction front with
  | nil => rw [List.nil_append, List.dropWhile_cons_of_neg (by simp [other]), List.dropWhile_nil,
      List.nil_append]
  | cons d front ih =>
      rw [List.cons_append, List.dropWhile_cons, List.dropWhile_cons, ih]
      split
      · rfl
      · rfl

/-- No token goes over a space. -/
theorem tokens_append_space (front rest : List UInt8) (space : isSpace c = true) :
    tokens (front ++ c :: rest) = tokens front ++ tokens rest := by
  have other := isWordByte_space space
  fun_induction tokens front with
  | case1 => exact tokens_space space
  | case2 d front blank ih => rw [List.cons_append, tokens_space blank, ih]
  | case3 front _ ih => rw [List.cons_append, tokens_ampersand, ih, List.cons_append]
  | case4 front _ _ ih => rw [List.cons_append, tokens_less, ih, List.cons_append]
  | case5 front _ _ _ ih => rw [List.cons_append, tokens_bar, ih, List.cons_append]
  | case6 front twice _ _ _ _ ih =>
      cases front with
      | nil => cases twice
      | cons d front =>
          have head : (d :: front ++ c :: rest).head? = some greater := twice
          rw [List.cons_append, tokens_greater, if_pos head, List.cons_append]
          exact congrArg (Token.append :: ·) ih
  | case7 front once _ _ _ _ ih =>
      have head : (front ++ c :: rest).head? ≠ some greater := by
        cases front with
        | nil =>
            intro same
            rw [List.nil_append, List.head?_cons, Option.some.injEq] at same
            rw [same] at space
            exact absurd space (by decide)
        | cons d front => exact once
      rw [List.cons_append, tokens_greater, if_neg head, ih, List.cons_append]
  | case8 d front notSpace notAmpersand notLess notBar notGreater ih =>
      have wordByte := isWordByte_of (by simpa using notSpace) notAmpersand notLess notGreater notBar
      rw [List.cons_append, tokens_word wordByte, skipWord_eq, takeWhile_stops front rest other,
        dropWhile_stops front rest other, ih, List.cons_append]

/-- Leading and trailing spaces make no tokens. -/
theorem tokens_trim (text : List UInt8) : tokens (trim text) = tokens text := by
  rw [trim, ← tokens_skipSpace text, skipSpace_eq]
  generalize text.dropWhile isSpace = text
  induction text using List.reverseRecOn with
  | nil => rfl
  | append_singleton front c ih =>
      by_cases space : isSpace c = true
      · rw [List.rdropWhile_concat_pos _ _ _ space, ih, tokens_append_space front [] space, tokens_nil,
          List.append_nil]
      · rw [List.rdropWhile_concat_neg _ _ _ space]

theorem Plain.tokens (plain : Plain word) : tokens word = [.word word] := by
  cases word with
  | nil => exact absurd rfl plain.some_
  | cons c rest =>
      have later : ∀ d ∈ rest, isWordByte d = true := fun d member =>
        plain.bytes d (List.mem_cons_of_mem c member)
      rw [tokens_word (plain.bytes c List.mem_cons_self), skipWord_eq,
        List.takeWhile_eq_self_iff.mpr later, List.dropWhile_eq_nil_iff.mpr later, tokens_nil]

theorem Plain.tokens_spaced (plain : Plain word) (rest : List UInt8) :
    Util.tokens (spaced word ++ rest) = .word word :: Util.tokens rest := by
  rw [spaced, List.append_assoc, List.singleton_append, tokens_append_space word rest rfl, plain.tokens,
    List.singleton_append]

theorem tokens_words (plain : ∀ word ∈ words, Plain word) (rest : List UInt8) :
    tokens (words.flatMap spaced ++ rest) = words.map .word ++ tokens rest := by
  induction words with
  | nil => rfl
  | cons word words ih =>
      rw [List.flatMap_cons, List.append_assoc, (plain word List.mem_cons_self).tokens_spaced,
        ih fun word member => plain word (List.mem_cons_of_mem _ member), List.map_cons, List.cons_append]

theorem tokens_printInput (plain : ∀ name ∈ input, Plain name) (rest : List UInt8) :
    tokens (printInput input ++ rest) = inputTokens input ++ tokens rest := by
  cases input with
  | none => rfl
  | some name =>
      have spacedName := (plain name rfl).tokens_spaced rest
      rw [printInput, List.cons_append, tokens_less, List.cons_append, tokens_space rfl, spacedName]
      rfl

theorem tokens_printOutput (plain : ∀ name ∈ output, Plain name) (rest : List UInt8) :
    tokens (printOutput append output ++ rest) = outputTokens append output ++ tokens rest := by
  cases output with
  | none => rfl
  | some name =>
      have spacedName := (plain name rfl).tokens_spaced rest
      cases append with
      | true =>
          have twice : (greater :: (blank :: (spaced name ++ rest))).head? = some greater := rfl
          rw [printOutput, if_pos rfl, List.cons_append, tokens_greater, List.cons_append,
            List.cons_append, if_pos twice, List.tail_cons, tokens_space rfl, spacedName]
          rfl
      | false =>
          have apart : ¬ (blank :: (spaced name ++ rest)).head? = some greater := by
            rw [List.head?_cons]
            decide
          rw [printOutput, if_neg Bool.false_ne_true, List.cons_append, tokens_greater, List.cons_append,
            if_neg apart, tokens_space rfl, spacedName]
          rfl

end Tokens

section Bytes

theorem clean_nil : Clean [] := fun _ member => absurd member List.not_mem_nil

theorem clean_cons {c : UInt8} (harmless : c ≠ 0 ∧ c ≠ hash ∧ c ≠ ampersand) (clean : Clean rest) :
    Clean (c :: rest) := by
  intro x member
  rcases List.mem_cons.mp member with rfl | later
  · exact harmless
  · exact clean x later

theorem Clean.join (clean : Clean front) (clean' : Clean rest) : Clean (front ++ rest) :=
  fun c member => (List.mem_append.mp member).elim (clean c) (clean' c)

theorem Plain.clean_spaced (plain : Plain word) : Clean (spaced word) := by
  intro c member
  rcases List.mem_append.mp member with inside | last
  · obtain ⟨noNul, noHash⟩ := plain.clean c inside
    have wordByte := plain.bytes c inside
    refine ⟨noNul, noHash, ?_⟩
    rintro rfl
    exact absurd wordByte (by decide)
  · rw [List.mem_singleton.mp last]
    decide

theorem clean_words (plain : ∀ word ∈ words, Plain word) : Clean (words.flatMap spaced) := by
  intro c member
  obtain ⟨word, listed, inside⟩ := List.mem_flatMap.mp member
  exact (plain word listed).clean_spaced c inside

theorem clean_printInput (plain : ∀ name ∈ input, Plain name) : Clean (printInput input) := by
  cases input with
  | none => exact clean_nil
  | some name =>
      have opens : Clean [less, blank] := clean_cons (by decide) (clean_cons (by decide) clean_nil)
      exact opens.join (plain name rfl).clean_spaced

theorem clean_printOutput (plain : ∀ name ∈ output, Plain name) : Clean (printOutput append output) := by
  cases output with
  | none => exact clean_nil
  | some name =>
      have closes := (plain name rfl).clean_spaced
      cases append with
      | true =>
          have opens : Clean [greater, greater, blank] :=
            clean_cons (by decide) (clean_cons (by decide) (clean_cons (by decide) clean_nil))
          exact opens.join closes
      | false =>
          have opens : Clean [greater, blank] := clean_cons (by decide) (clean_cons (by decide) clean_nil)
          exact opens.join closes

end Bytes

section Printing

/-- The command has these stages from `i` on. -/
structure Prints (cmd : ParsedCommand) (i : Nat) (stages : List (List (List UInt8))) : Prop where
  numCommands : cmd.numCommands = i + stages.length
  argv : ∀ k, cmd.argv (i + k) = stages[k]?
  plain : ∀ words ∈ stages, ∀ word ∈ words, Plain word

theorem Prints.later {i : Nat} (prints : Prints cmd i (words :: stages)) : Prints cmd (i + 1) stages where
  numCommands := by
    rw [prints.numCommands, List.length_cons]
    omega
  argv k := by
    have here := prints.argv (k + 1)
    rw [show i + 1 + k = i + (k + 1) by omega, here, List.getElem?_cons_succ]
  plain words member := prints.plain words (List.mem_cons_of_mem _ member)

theorem printLoop_cons {i count : Nat} (stage : cmd.printStage i = some text)
    (run : cmd.printLoop count (i + 1) = some rest) :
    cmd.printLoop (count + 1) i = some (text ++ rest) := by
  rw [ParsedCommand.printLoop, stage, run]
  rfl

/-- The loop prints the stages that are left. -/
theorem printLoop_prints {i : Nat} (prints : Prints cmd i stages)
    (input : ∀ name ∈ cmd.stdinFile.map cmd.str, Plain name)
    (output : ∀ name ∈ cmd.stdoutFile.map cmd.str, Plain name) :
    ∃ text, cmd.printLoop stages.length i = some text ∧ Clean text ∧
      tokens text = printedTokens cmd.isFileAppend (cmd.stdoutFile.map cmd.str)
        (if i = 0 then cmd.stdinFile.map cmd.str else none) stages := by
  induction stages generalizing i with
  | nil => exact ⟨[], rfl, clean_nil, tokens_nil⟩
  | cons words later ih =>
      obtain ⟨rest, run, clean, read⟩ := ih prints.later
      have fresh : ¬ i + 1 = 0 := by omega
      rw [if_neg fresh] at read
      have here := prints.argv 0
      have plain := prints.plain words List.mem_cons_self
      have count := prints.numCommands
      rw [List.getElem?_cons_zero, Nat.add_zero] at here
      -- the input file belongs to the first stage
      have front : ∀ name ∈ (if i = 0 then cmd.stdinFile.map cmd.str else none), Plain name := by
        split
        · exact input
        · exact fun name member => absurd member (Option.not_mem_none name)
      have stdin : (if i = 0 then printInput (cmd.stdinFile.map cmd.str) else []) =
          printInput (if i = 0 then cmd.stdinFile.map cmd.str else none) := by
        split
        · rfl
        · rfl
      have stage : cmd.printStage i = some (words.flatMap spaced ++
          (printInput (if i = 0 then cmd.stdinFile.map cmd.str else none) ++
            if i = cmd.numCommands - 1 then printOutput cmd.isFileAppend (cmd.stdoutFile.map cmd.str)
            else [bar, blank])) := by
        rw [ParsedCommand.printStage, here, stdin]
        rfl
      refine ⟨_, printLoop_cons stage run, ?_⟩
      cases later with
      | nil =>
          have last : i = cmd.numCommands - 1 := by
            rw [count, List.length_singleton]
            omega
          rw [if_pos last]
          constructor
          · exact ((clean_words plain).join
              ((clean_printInput front).join (clean_printOutput output))).join clean
          · rw [List.append_assoc, List.append_assoc, tokens_words plain, tokens_printInput front,
              tokens_printOutput output, read, printedTokens, printedTokens, List.append_nil]
      | cons next more =>
          have inner : ¬ i = cmd.numCommands - 1 := by
            rw [count, List.length_cons, List.length_cons]
            omega
          rw [if_neg inner]
          have pipe : Clean [bar, blank] := clean_cons (by decide) (clean_cons (by decide) clean_nil)
          constructor
          · exact ((clean_words plain).join ((clean_printInput front).join pipe)).join clean
          · rw [List.append_assoc, List.append_assoc, tokens_words plain, tokens_printInput front,
              List.cons_append, tokens_bar, List.singleton_append, tokens_space rfl, read, printedTokens]

end Printing

section Grammar

variable {word_ input_ output_ piped : Bool}

theorem acceptedFrom_words (words : List (List UInt8)) :
    AcceptedFrom true input_ output_ piped (words.map .word ++ ts) ↔
      AcceptedFrom true input_ output_ piped ts := by
  induction words with
  | nil => rfl
  | cons word words ih => rw [List.map_cons, List.cons_append, acceptedFrom_word, ih]

theorem acceptedFrom_stage (some_ : words ≠ []) :
    AcceptedFrom word_ input_ output_ piped (words.map .word ++ ts) ↔
      AcceptedFrom true input_ output_ piped ts := by
  cases words with
  | nil => exact absurd rfl some_
  | cons word words => rw [List.map_cons, List.cons_append, acceptedFrom_word, acceptedFrom_words]

theorem acceptedFrom_outputTokens (append : Bool) (output : Option (List UInt8)) :
    AcceptedFrom true input_ false piped (outputTokens append output) := by
  cases output with
  | none => exact acceptedFrom_nil.mpr rfl
  | some name =>
      have outputs : (if append = true then Token.append else .output).isOutput = true := by
        cases append with
        | true => rfl
        | false => rfl
      exact (acceptedFrom_output outputs).mpr ⟨rfl, acceptedFrom_nil.mpr rfl⟩

/-- The printed tokens are in the grammar. -/
theorem acceptedFrom_printed (filled : ∀ words ∈ stages, words ≠ []) (some_ : stages ≠ [])
    (first : piped = true ∨ input_ = true → input = none) :
    AcceptedFrom word_ input_ false piped (printedTokens append output input stages) := by
  induction stages generalizing word_ input_ piped input with
  | nil => exact absurd rfl some_
  | cons words later ih =>
      have here := filled words List.mem_cons_self
      cases later with
      | nil =>
          have last := fun seen => @acceptedFrom_outputTokens seen piped append output
          rw [printedTokens, acceptedFrom_stage here]
          cases input with
          | none => exact last input_
          | some name =>
              obtain ⟨single, fresh⟩ := not_or.mp fun seen => by cases first seen
              exact acceptedFrom_input.mpr ⟨by simpa using single, by simpa using fresh, last true⟩
      | cons next more =>
          have later : ∀ seen : Bool, AcceptedFrom false seen false true
              (printedTokens append output none (next :: more)) := fun seen =>
            ih (fun words member => filled words (List.mem_cons_of_mem _ member))
              (List.cons_ne_nil _ _) fun _ => rfl
          rw [printedTokens, acceptedFrom_stage here]
          cases input with
          | none => exact acceptedFrom_pipe.mpr ⟨rfl, rfl, later input_⟩
          | some name =>
              obtain ⟨single, fresh⟩ := not_or.mp fun seen => by cases first seen
              exact acceptedFrom_input.mpr ⟨by simpa using single, by simpa using fresh,
                acceptedFrom_pipe.mpr ⟨rfl, rfl, later true⟩⟩

theorem argLists_words (words : List (List UInt8)) (ts : List Token) :
    argLists (words.map .word ++ ts) = (argLists ts).modifyHead (words ++ ·) := by
  induction words with
  | nil =>
      have some_ := argLists_ne_nil ts
      cases lists : argLists ts with
      | nil => exact absurd lists some_
      | cons first others => simpa using lists
  | cons word words ih =>
      rw [List.map_cons, List.cons_append, argLists_word, ih, List.modifyHead_modifyHead]
      rfl

theorem argLists_inputTokens (input : Option (List UInt8)) (ts : List Token) :
    argLists (inputTokens input ++ ts) = argLists ts := by
  cases input with
  | none => rfl
  | some name => exact argLists_redirection rfl

theorem argLists_outputTokens (append : Bool) (output : Option (List UInt8)) :
    argLists (outputTokens append output) = [[]] := by
  cases output with
  | none => exact argLists_nil
  | some name =>
      cases append with
      | true => exact (argLists_redirection rfl).trans argLists_nil
      | false => exact (argLists_redirection rfl).trans argLists_nil

theorem argLists_printed (some_ : stages ≠ []) :
    argLists (printedTokens append output input stages) = stages := by
  induction stages generalizing input with
  | nil => exact absurd rfl some_
  | cons words later ih =>
      cases later with
      | nil =>
          rw [printedTokens, argLists_words, argLists_inputTokens, argLists_outputTokens,
            List.modifyHead_cons, List.append_nil]
      | cons next more =>
          rw [printedTokens, argLists_words, argLists_inputTokens, argLists_pipe, ih (List.cons_ne_nil _ _),
            List.modifyHead_cons, List.append_nil]

theorem inputFile_words (words : List (List UInt8)) (ts : List Token) :
    inputFile (words.map .word ++ ts) = inputFile ts := by
  induction words with
  | nil => rfl
  | cons word words ih =>
      rw [List.map_cons, List.cons_append, inputFile, ih]
      rintro _ _ ⟨⟩

theorem outputFile_words (words : List (List UInt8)) (ts : List Token) :
    outputFile (words.map .word ++ ts) = outputFile ts := by
  induction words with
  | nil => rfl
  | cons word words ih =>
      rw [List.map_cons, List.cons_append, outputFile, ih]
      · rintro _ _ ⟨⟩
      · rintro _ _ ⟨⟩

theorem inputFile_outputTokens (append : Bool) (output : Option (List UInt8)) :
    inputFile (outputTokens append output) = none := by
  cases output with
  | none => rfl
  | some name =>
      cases append with
      | true => rfl
      | false => rfl

theorem inputFile_printed (some_ : stages ≠ []) :
    inputFile (printedTokens append output input stages) = input := by
  induction stages generalizing input with
  | nil => exact absurd rfl some_
  | cons words later ih =>
      cases later with
      | nil =>
          rw [printedTokens, inputFile_words]
          cases input with
          | none => exact inputFile_outputTokens append output
          | some name => rfl
      | cons next more =>
          rw [printedTokens, inputFile_words]
          cases input with
          | none => exact ih (List.cons_ne_nil _ _)
          | some name => rfl

theorem outputFile_inputTokens (input : Option (List UInt8)) (ts : List Token) :
    outputFile (inputTokens input ++ ts) = outputFile ts := by
  cases input with
  | none => rfl
  | some name => rfl

theorem outputFile_printed (some_ : stages ≠ []) :
    outputFile (printedTokens append output input stages) = output := by
  induction stages generalizing input with
  | nil => exact absurd rfl some_
  | cons words later ih =>
      cases later with
      | nil =>
          rw [printedTokens, outputFile_words, outputFile_inputTokens]
          cases output with
          | none => rfl
          | some name =>
              cases append with
              | true => rfl
              | false => rfl
      | cons next more =>
          rw [printedTokens, outputFile_words, outputFile_inputTokens]
          exact ih (List.cons_ne_nil _ _)

theorem append_mem_printed (some_ : stages ≠ []) :
    .append ∈ printedTokens append output input stages ↔ append = true ∧ output ≠ none := by
  have words_ : ∀ words : List (List UInt8), Token.append ∉ words.map Token.word := by
    intro words member
    obtain ⟨_, _, same⟩ := List.mem_map.mp member
    cases same
  have input_ : ∀ input : Option (List UInt8), Token.append ∉ inputTokens input := by
    intro input
    cases input with
    | none => exact List.not_mem_nil
    | some name => simp [inputTokens]
  induction stages generalizing input with
  | nil => exact absurd rfl some_
  | cons words later ih =>
      cases later with
      | nil =>
          simp only [printedTokens, List.mem_append, words_, input_, false_or]
          cases output with
          | none => simp [outputTokens]
          | some name => cases append <;> simp [outputTokens]
      | cons next more =>
          simp only [printedTokens, List.mem_append, words_, input_, false_or, List.mem_cons, reduceCtorEq]
          exact ih (List.cons_ne_nil _ _)

end Grammar

section Words

/-- The words of a line can stand in one. -/
theorem plain_of_token (clean : ∀ c ∈ text, c ≠ 0 ∧ c ≠ hash) (member : .word word ∈ tokens text) :
    Plain word := by
  have tail : ∀ {c : UInt8} {rest : List UInt8}, (∀ d ∈ c :: rest, d ≠ 0 ∧ d ≠ hash) →
      ∀ d ∈ rest, d ≠ 0 ∧ d ≠ hash := fun clean d inside => clean d (List.mem_cons_of_mem _ inside)
  fun_induction tokens text with
  | case1 => cases member
  | case2 c rest _ ih => exact ih (tail clean) member
  | case3 rest _ ih => exact ih (tail clean) ((List.mem_cons.mp member).resolve_left (by rintro ⟨⟩))
  | case4 rest _ _ ih => exact ih (tail clean) ((List.mem_cons.mp member).resolve_left (by rintro ⟨⟩))
  | case5 rest _ _ _ ih => exact ih (tail clean) ((List.mem_cons.mp member).resolve_left (by rintro ⟨⟩))
  | case6 rest _ _ _ _ _ ih =>
      refine ih (fun d inside => ?_) ((List.mem_cons.mp member).resolve_left (by rintro ⟨⟩))
      exact tail clean d (List.mem_of_mem_tail inside)
  | case7 rest _ _ _ _ _ ih => exact ih (tail clean) ((List.mem_cons.mp member).resolve_left (by rintro ⟨⟩))
  | case8 c rest notSpace notAmpersand notLess notBar notGreater ih =>
      rcases List.mem_cons.mp member with here | later
      · obtain rfl := Token.word.inj here
        have wordByte := isWordByte_of (by simpa using notSpace) notAmpersand notLess notGreater notBar
        refine ⟨List.cons_ne_nil _ _, fun d inside => ?_, fun d inside => ?_⟩
        · rcases List.mem_cons.mp inside with rfl | taken
          · exact wordByte
          · exact List.mem_takeWhile_imp taken
        · exact clean d ((List.cons_subset_cons _ (List.takeWhile_subset _)) inside)
      · exact ih (fun d inside => tail clean d ((List.dropWhile_sublist _).subset inside)) later

theorem mem_of_args (member : word ∈ args ts) : .word word ∈ ts := by
  fun_induction args ts with
  | case1 => cases member
  | case2 bytes rest ih =>
      rcases List.mem_cons.mp member with rfl | later
      · exact List.mem_cons_self
      · exact List.mem_cons_of_mem _ (ih later)
  | case3 bytes rest ih => exact List.mem_cons_of_mem _ (List.mem_cons_of_mem _ (ih member))
  | case4 bytes rest ih => exact List.mem_cons_of_mem _ (List.mem_cons_of_mem _ (ih member))
  | case5 bytes rest ih => exact List.mem_cons_of_mem _ (List.mem_cons_of_mem _ (ih member))
  | case6 t rest _ _ _ _ ih => exact List.mem_cons_of_mem _ (ih member)

theorem segment_subset {segment : List Token} (member : segment ∈ segments ts) : segment ⊆ ts := by
  induction ts generalizing segment with
  | nil =>
      obtain rfl := List.mem_singleton.mp member
      exact List.Subset.refl []
  | cons t rest ih =>
      by_cases pipe : t = .pipe
      · rw [pipe, segments_pipe] at member
        rcases List.mem_cons.mp member with rfl | later
        · exact List.nil_subset _
        · exact List.subset_cons_of_subset _ (ih later)
      · rw [segments_other pipe] at member
        have some_ := segments_ne_nil rest
        cases parts : segments rest with
        | nil => exact absurd parts some_
        | cons first others =>
            rw [parts, List.modifyHead_cons] at member
            rw [parts] at ih
            rcases List.mem_cons.mp member with rfl | later
            · exact List.cons_subset_cons _ (ih List.mem_cons_self)
            · exact List.subset_cons_of_subset _ (ih (List.mem_cons_of_mem _ later))

theorem mem_of_argLists (listed : words ∈ argLists ts) (member : word ∈ words) : .word word ∈ ts := by
  obtain ⟨segment, inside, rfl⟩ := List.mem_map.mp listed
  exact segment_subset inside (mem_of_args member)

theorem mem_of_inputFile (found : inputFile ts = some word) : .word word ∈ ts := by
  fun_induction inputFile ts with
  | case1 => cases found
  | case2 bytes rest =>
      obtain rfl := Option.some.inj found
      exact List.mem_cons_of_mem _ List.mem_cons_self
  | case3 t rest _ ih => exact List.mem_cons_of_mem _ (ih found)

theorem mem_of_outputFile (found : outputFile ts = some word) : .word word ∈ ts := by
  fun_induction outputFile ts with
  | case1 => cases found
  | case2 bytes rest =>
      obtain rfl := Option.some.inj found
      exact List.mem_cons_of_mem _ List.mem_cons_self
  | case3 bytes rest =>
      obtain rfl := Option.some.inj found
      exact List.mem_cons_of_mem _ List.mem_cons_self
  | case4 t rest _ _ ih => exact List.mem_cons_of_mem _ (ih found)

/-- A line with `>>` names an output file. -/
theorem Followed.outputFile_ne_none (followed : Followed ts) (appends : .append ∈ ts) :
    outputFile ts ≠ none := by
  fun_induction outputFile ts with
  | case1 => cases appends
  | case2 bytes rest => rintro ⟨⟩
  | case3 bytes rest => rintro ⟨⟩
  | case4 t rest _ noAppend ih =>
      refine ih followed.2 ((List.mem_cons.mp appends).resolve_left ?_)
      rintro rfl
      obtain ⟨bytes, later, rfl⟩ := followed.exists_word rfl
      exact noAppend bytes later rfl rfl

end Words

section RoundTrip

theorem dropWhile_space_append (text : List UInt8) (notSpace : isSpace c = false) (rest : List UInt8) :
    (text ++ c :: rest).dropWhile isSpace = text.dropWhile isSpace ++ c :: rest := by
  rw [List.dropWhile_append]
  split
  · rename_i blank_
    rw [List.isEmpty_iff.mp blank_, List.dropWhile_cons_of_neg (by simp [notSpace]), List.nil_append]
  · rfl

/-- The body of a line that was printed. -/
theorem printed_body (clean : Clean text) (isBackground : Bool)
    (printed : line = text ++ (if isBackground then [ampersand] else []) ++ [newline]) :
    marked (lineBody line) = isBackground ∧ tokens (unmarked (lineBody line)) = tokens text := by
  have noHash : ∀ d ∈ line, decide (d ≠ hash) = true := by
    intro d member
    rw [decide_eq_true_eq]
    rw [printed] at member
    rcases List.mem_append.mp member with inside | last
    · rcases List.mem_append.mp inside with inside | flag
      · exact (clean d inside).2.1
      · split at flag
        · rw [List.mem_singleton.mp flag]
          decide
        · cases flag
    · rw [List.mem_singleton.mp last]
      decide
  have body : lineBody line = trim line := by rw [lineBody, List.takeWhile_eq_self_iff.mpr noHash]
  cases isBackground with
  | true =>
      have whole : lineBody line = text.dropWhile isSpace ++ [ampersand] := by
        rw [body, printed, if_pos rfl, trim, List.append_assoc, List.singleton_append,
          dropWhile_space_append text rfl, ← List.singleton_append, ← List.append_assoc,
          List.rdropWhile_concat_pos _ _ _ rfl, List.rdropWhile_concat_neg _ _ _ (by decide)]
      have flag : marked (lineBody line) = true := by
        rw [whole, marked, List.getLast?_concat]
        exact decide_eq_true rfl
      refine ⟨flag, ?_⟩
      rw [unmarked, if_pos flag, whole, List.dropLast_concat, tokens_trim, ← skipSpace_eq, tokens_skipSpace]
  | false =>
      have whole : lineBody line = trim (text ++ [newline]) := by
        rw [body, printed, if_neg Bool.false_ne_true, List.append_nil]
      have flag : marked (lineBody line) = false := by
        rw [marked, decide_eq_false_iff_not, whole]
        intro last
        have member := (List.rdropWhile_prefix _ _).sublist.subset (List.mem_of_getLast? last)
        rcases List.mem_append.mp ((List.dropWhile_sublist _).subset member) with inside | last
        · exact (clean _ inside).2.2 rfl
        · exact absurd (List.mem_singleton.mp last) (by decide)
      refine ⟨flag, ?_⟩
      rw [unmarked, if_neg (by simp [flag]), whole, tokens_trim, tokens_append_space text [] rfl, tokens_nil,
        List.append_nil]

namespace ParsedCommand

theorem SameCommand.printStage {a b : ParsedCommand} (same : SameCommand a b) (i : Nat) :
    a.printStage i = b.printStage i := by
  rw [ParsedCommand.printStage, ParsedCommand.printStage, same.argv, same.stdinFile, same.stdoutFile,
    same.isFileAppend, same.numCommands]

theorem SameCommand.printLoop {a b : ParsedCommand} (same : SameCommand a b) (count i : Nat) :
    a.printLoop count i = b.printLoop count i := by
  induction count generalizing i with
  | zero => rfl
  | succ count ih => rw [ParsedCommand.printLoop, ParsedCommand.printLoop, same.printStage, ih]

/-- Nothing is printed but what a command says. -/
theorem SameCommand.prints {a b : ParsedCommand} (same : SameCommand a b) :
    a.printParsedCommand = b.printParsedCommand := by
  rw [printParsedCommand, printParsedCommand, same.numCommands, same.printLoop, same.isBackground]

end ParsedCommand

/-- Two parses of lines with the same tokens. -/
theorem IsParse.same {body body' : List UInt8} (parse : IsParse body pcmd) (parse' : IsParse body' cmd)
    (flag : marked body = marked body')
    (lists : argLists (tokens (unmarked body)) = argLists (tokens (unmarked body')))
    (inputs : inputFile (tokens (unmarked body)) = inputFile (tokens (unmarked body')))
    (outputs : outputFile (tokens (unmarked body)) = outputFile (tokens (unmarked body')))
    (appends : .append ∈ tokens (unmarked body) ↔ .append ∈ tokens (unmarked body')) :
    pcmd.SameCommand cmd := by
  have argv : ∀ {body : List UInt8} {cmd : ParsedCommand}, IsParse body cmd → ∀ i,
      cmd.argv i = (argLists (tokens (unmarked body)))[i]? := by
    intro body cmd parse i
    rw [parse.argv, argLists, List.getElem?_map]
  have count : ∀ {body : List UInt8} {cmd : ParsedCommand}, IsParse body cmd →
      cmd.numCommands = (argLists (tokens (unmarked body))).length := by
    intro body cmd parse
    rw [parse.numCommands, argLists, List.length_map]
  refine ⟨by rw [parse.isBackground, parse'.isBackground, flag],
    ?_, by rw [parse.stdinFile, parse'.stdinFile, inputs],
    by rw [parse.stdoutFile, parse'.stdoutFile, outputs], by rw [count parse, count parse', lists],
    fun i => by rw [argv parse, argv parse', lists]⟩
  rw [parse.isFileAppend, parse'.isFileAppend]
  exact decide_eq_decide.mpr appends

theorem unmarked_noHash (line : List UInt8) : ∀ c ∈ unmarked (lineBody line), c ≠ hash := by
  have trims : ∀ text : List UInt8, trim text ⊆ text := fun text =>
    ((List.rdropWhile_prefix _ _).sublist.trans (List.dropWhile_sublist _)).subset
  have body : unmarked (lineBody line) ⊆ line.takeWhile fun c => c ≠ hash := by
    rw [unmarked]
    split
    · exact List.Subset.trans (List.Subset.trans (trims _) (List.dropLast_sublist _).subset) (trims _)
    · exact trims _
  intro c member
  simpa using List.mem_takeWhile_imp (body member)

theorem printed_noNul (clean : Clean text) (isBackground : Bool) :
    ∀ d ∈ text ++ (if isBackground then [ampersand] else []) ++ [newline], d ≠ 0 := by
  intro d member
  rcases List.mem_append.mp member with inside | last
  · rcases List.mem_append.mp inside with inside | flag
    · exact (clean d inside).1
    · split at flag
      · rw [List.mem_singleton.mp flag]
        decide
      · cases flag
  · rw [List.mem_singleton.mp last]
    decide

/-- A printed text in the grammar is parsed. -/
theorem printed_parses (calloc : heap.calloc = true) (realloc : heap.realloc = true) (clean : Clean text)
    (accepted : Accepted (tokens text)) (isBackground : Bool)
    (printed : line = text ++ (if isBackground then [ampersand] else []) ++ [newline]) :
    ∃ again, parseCommand heap line = .ok again ∧ IsParse (lineBody line) again := by
  obtain ⟨flag, read⟩ := printed_body clean isBackground printed
  have some_ : lineBody line ≠ [] := by
    intro empty
    have nothing : unmarked (lineBody line) = [] := by
      rw [empty]
      rfl
    rw [nothing, tokens_nil] at read
    rw [← read] at accepted
    exact accepted.filled [] (List.mem_singleton.mpr rfl) rfl
  rw [← read] at accepted
  obtain ⟨pass, run, last⟩ := (checkTokens_iff_accepted _).mpr accepted
  have parsed : parseCommand heap line = .ok (filledCommand heap (lineBody line) pass) :=
    (parseCommand_ok calloc some_).mpr ⟨realloc, pass, run, last, rfl⟩
  refine ⟨_, parsed, (parseCommand_isParse parsed some_ ?_).2⟩
  rw [printed]
  exact printed_noNul clean isBackground

/-- The parse of a line as the loop of `print_parsed_command` reads it. -/
theorem IsParse.prints {body : List UInt8} (parse : IsParse body pcmd)
    (plain : ∀ word, .word word ∈ tokens (unmarked body) → Plain word) :
    Prints pcmd 0 (argLists (tokens (unmarked body))) where
  numCommands := by rw [parse.numCommands, argLists, List.length_map, Nat.zero_add]
  argv k := by rw [Nat.zero_add, parse.argv, argLists, List.getElem?_map]
  plain _ listed word member := plain word (mem_of_argLists listed member)

/-- What `print_parsed_command` writes for the parse of a line is a line with the same parse, and
printing that again changes nothing. -/
theorem print_parses_back (line : CommandLine) (heap heap' : Heap) (pcmd : ParsedCommand)
    (parsed : parseCommand heap line.bytes = .ok pcmd) (calloc : heap'.calloc = true)
    (realloc : heap'.realloc = true) :
    ∃ text again, pcmd.printParsedCommand = some text ∧ parseCommand heap' text = .ok again ∧
      pcmd.SameCommand again ∧ again.printParsedCommand = some text := by
  by_cases empty : lineBody line.bytes = []
  · rw [parseCommand_empty (parseCommand_calloc parsed) empty] at parsed
    obtain rfl := Except.ok.inj parsed
    have again : parseCommand heap' [newline] = .ok .zeroed := parseCommand_empty calloc (by decide)
    exact ⟨[newline], .zeroed, rfl, again, ⟨rfl, rfl, rfl, rfl, rfl, fun _ => rfl⟩, rfl⟩
  obtain ⟨accepted, parse⟩ := parseCommand_isParse parsed empty line.noNul
  have plain : ∀ word, .word word ∈ tokens (unmarked (lineBody line.bytes)) → Plain word := by
    intro word member
    refine plain_of_token (fun c inside => ?_) member
    have inLine := (unmarked_sublist line.bytes).subset inside
    exact ⟨line.noNul c inLine, unmarked_noHash line.bytes c inside⟩
  have stdin : ∀ name ∈ pcmd.stdinFile.map pcmd.str, Plain name := fun name named =>
    plain name (mem_of_inputFile (parse.stdinFile ▸ named))
  have stdout : ∀ name ∈ pcmd.stdoutFile.map pcmd.str, Plain name := fun name named =>
    plain name (mem_of_outputFile (parse.stdoutFile ▸ named))
  have prints := parse.prints plain
  obtain ⟨stages, run, clean, read⟩ := printLoop_prints prints stdin stdout
  -- what was printed has the words and files of the line
  have some_ : argLists (tokens (unmarked (lineBody line.bytes))) ≠ [] := argLists_ne_nil _
  have filled : ∀ words ∈ argLists (tokens (unmarked (lineBody line.bytes))), words ≠ [] := by
    intro words listed
    obtain ⟨segment, inside, rfl⟩ := List.mem_map.mp listed
    exact accepted.filled segment inside
  have accepted' : Accepted (tokens stages) := by
    rw [read, ← acceptedFrom_start]
    exact acceptedFrom_printed filled some_ (by simp)
  obtain ⟨again, parsed', parse'⟩ :=
    printed_parses calloc realloc clean accepted' pcmd.isBackground rfl
  obtain ⟨flag, read'⟩ := printed_body clean pcmd.isBackground rfl
  have text : pcmd.printParsedCommand =
      some (stages ++ (if pcmd.isBackground then [ampersand] else []) ++ [newline]) := by
    rw [ParsedCommand.printParsedCommand, prints.numCommands, Nat.zero_add, run]
    rfl
  have same : pcmd.SameCommand again := by
    refine parse.same parse' (parse.isBackground.symm.trans flag.symm) ?_ ?_ ?_ ?_
    · rw [read', read, argLists_printed some_]
    · rw [read', read, inputFile_printed some_]
      exact parse.stdinFile.symm
    · rw [read', read, outputFile_printed some_]
      exact parse.stdoutFile.symm
    · rw [read', read, append_mem_printed some_, parse.isFileAppend, decide_eq_true_eq, parse.stdoutFile]
      exact ⟨fun appends => ⟨appends, accepted.followed.outputFile_ne_none appends⟩, And.left⟩
  exact ⟨_, again, text, parsed', same, same.prints ▸ text⟩

theorem print_parses_back_sample : ∃ pcmd text again,
    parseCommand ⟨true, true, 7⟩ sampleLine.bytes = .ok pcmd ∧ pcmd.printParsedCommand = some text ∧
      parseCommand ⟨true, true, 9⟩ text = .ok again ∧ pcmd.SameCommand again := by
  obtain ⟨text, again, printed, parsed, same, _⟩ :=
    print_parses_back sampleLine ⟨true, true, 7⟩ ⟨true, true, 9⟩ _ rfl rfl rfl
  exact ⟨_, text, again, rfl, printed, parsed, same⟩

/-- `a < b | c >> d &` -/
example : (parseCommand ⟨true, true, 7⟩ sampleLine.bytes).toOption.bind ParsedCommand.printParsedCommand =
    some [97, blank, less, blank, 98, blank, bar, blank, 99, blank, greater, greater, blank, 100, blank,
      ampersand, newline] := by decide

end RoundTrip

end PennOs.Util
