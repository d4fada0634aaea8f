import PennOs.Util.SecondPass

set_option autoImplicit false

/- `parse_command` against the grammar of command lines. -/
namespace PennOs.Util

open CutStrings
open PennOs.Shell (isSpace)

variable {line body text : List UInt8} {ts : List Token} {heap : Heap} {pass : FirstPass}
  {pcmd : ParsedCommand}

section Trimming

theorem AtToken.front {front : List UInt8} (atToken : AtToken text) (starts : front <+: text) :
    AtToken front := by
  intro c head
  obtain ⟨rest, rfl⟩ := starts
  apply atToken
  rw [List.head?_append, head]
  rfl

theorem dropWhile_atToken (text : List UInt8) : AtToken (text.dropWhile isSpace) := by
  rw [← skipSpace_eq]
  exact skipSpace_atToken text

theorem lineBody_atToken (line : List UInt8) : AtToken (lineBody line) :=
  (dropWhile_atToken _).front (List.rdropWhile_prefix _ _)

theorem AtToken.dropWhile (atToken : AtToken text) : text.dropWhile isSpace = text := by
  cases text with
  | nil => rfl
  | cons c rest => rw [List.dropWhile_cons_of_neg (by simp [atToken c rfl])]

theorem takeBackground_body (line : List UInt8) :
    takeBackground (lineBody line) = (marked (lineBody line), unmarked (lineBody line)) := by
  have trimmed : trimEnd (lineBody line) = lineBody line := by
    rw [trimEnd_eq, lineBody, trim, List.rdropWhile_idempotent]
  have front := ((lineBody_atToken line).front (List.dropLast_prefix _)).dropWhile
  rw [takeBackground, unmarked, trimmed, marked]
  by_cases last : (lineBody line).getLast? = some ampersand
  · simp [last, trim, front, trimEnd_eq]
  · simp [last]

theorem unmarked_atToken (atToken : AtToken body) : AtToken (unmarked body) := by
  rw [unmarked]
  split
  · exact (dropWhile_atToken _).front (List.rdropWhile_prefix _ _)
  · exact atToken

theorem unmarked_sublist (line : List UInt8) : (unmarked (lineBody line)).Sublist line := by
  have trims : ∀ text : List UInt8, (trim text).Sublist text := fun text =>
    (List.rdropWhile_prefix _ _).sublist.trans (List.dropWhile_sublist _)
  have inside : (lineBody line).Sublist line := (trims _).trans (List.takeWhile_sublist _)
  rw [unmarked]
  split
  · exact ((trims _).trans (List.dropLast_sublist _)).trans inside
  · exact inside

theorem marked_of_unmarked_nil (some_ : body ≠ []) (nothing : unmarked body = []) :
    marked body = true := by
  by_contra unset
  rw [unmarked, if_neg unset] at nothing
  exact some_ nothing

theorem tokens_ne_nil {c : UInt8} {rest : List UInt8} (atToken : AtToken (c :: rest)) :
    tokens (c :: rest) ≠ [] := by
  have notSpace := atToken c rfl
  by_cases amp : c = ampersand
  · rw [amp, tokens_ampersand]
    exact List.cons_ne_nil _ _
  by_cases lt : c = less
  · rw [lt, tokens_less]
    exact List.cons_ne_nil _ _
  by_cases gt : c = greater
  · rw [gt, tokens_greater]
    split <;> exact List.cons_ne_nil _ _
  by_cases pipe : c = bar
  · rw [pipe, tokens_bar]
    exact List.cons_ne_nil _ _
  · rw [tokens_word (isWordByte_of notSpace amp lt gt pipe)]
    exact List.cons_ne_nil _ _

end Trimming

/-- A token pass that found no argument and no redirection had no tokens. -/
theorem checkTokens_empty (run : checkTokens .start ts = .ok pass) (strings : pass.totalStrings = 0)
    (inputs : pass.hasFileInput = false) (outputs : pass.hasFileOutput = false) : ts = [] := by
  obtain ⟨-, counted, -, input, output, -⟩ := checkTokens_counts run
  cases ts with
  | nil => rfl
  | cons t rest =>
      cases t with
      | word bytes => simp [args, FirstPass.start, strings] at counted
      | pipe => cases run
      | background => cases run
      | input => simp [inputs] at input
      | output => simp [outputs] at output
      | append => simp [outputs] at output

/-- The state that the second pass starts from. -/
def SecondPass.start (heap : Heap) (text : List UInt8) : SecondPass :=
  ⟨none, none, [0], [], text ++ [heap.fresh]⟩

/-- The result that the second pass fills in. -/
def filledCommand (heap : Heap) (body : List UInt8) (pass : FirstPass) : ParsedCommand :=
  let text := unmarked body
  let stored := secondLoop pass.isFileAppend text text.length (.start heap text) text
  { isBackground := marked body
    isFileAppend := pass.isFileAppend
    stdinFile := stored.stdinFile
    stdoutFile := stored.stdoutFile
    numCommands := pass.numCommands + 1
    commands := stored.commands
    arguments := stored.arguments ++ [none]
    string := stored.string }

theorem parseCommand_empty (calloc : heap.calloc = true) (empty : lineBody line = []) :
    parseCommand heap line = .ok .zeroed := by
  have text : trimEnd (skipSpace (cutComment line)) = [] := by
    rw [trimEnd_eq, skipSpace_eq, cutComment_eq]
    exact empty
  rw [parseCommand, text, calloc]
  rfl

theorem parseCommand_run (calloc : heap.calloc = true) (some_ : lineBody line ≠ []) :
    parseCommand heap line = (do
      let pass ← checkTokens .start (tokens (unmarked (lineBody line)))
      if pass.totalStrings = 0 then throw .expectCommands
      if pass.hasTokenLast = false then throw .unexpectedPipeline
      if heap.realloc = false then throw .systemCall
      return filledCommand heap (lineBody line) pass) := by
  have text : trimEnd (skipSpace (cutComment line)) = lineBody line := by
    rw [trimEnd_eq, skipSpace_eq, cutComment_eq]
    rfl
  have loop := @firstLoop_tokens _ .start _ (unmarked_atToken (lineBody_atToken line)) (Nat.le_refl _)
  rw [parseCommand, text, calloc, takeBackground_body]
  simp only [Bool.true_eq_false, some_, ↓reduceIte, loop]
  cases run : checkTokens .start (tokens (unmarked (lineBody line))) with
  | error e => rfl
  | ok pass =>
      by_cases strings : pass.totalStrings = 0
      · have flagged : marked (lineBody line) = true ∨ pass.hasFileInput = true ∨
            pass.hasFileOutput = true := by
          by_contra unset
          simp only [not_or, Bool.not_eq_true] at unset
          have nothing := checkTokens_empty run strings unset.2.1 unset.2.2
          have blank : unmarked (lineBody line) = [] := by
            cases text : unmarked (lineBody line) with
            | nil => rfl
            | cons c rest =>
                have atToken := unmarked_atToken (lineBody_atToken line)
                rw [text] at nothing atToken
                exact absurd nothing (tokens_ne_nil atToken)
          rw [marked_of_unmarked_nil some_ blank] at unset
          cases unset.1
        simp only [bind, Except.bind, strings, flagged, ↓reduceIte]
        rfl
      · simp only [bind, Except.bind, strings, ↓reduceIte]
        rfl

theorem parseCommand_ok (calloc : heap.calloc = true) (some_ : lineBody line ≠ []) :
    parseCommand heap line = .ok pcmd ↔ heap.realloc = true ∧
      ∃ pass, checkTokens .start (tokens (unmarked (lineBody line))) = .ok pass ∧
        pass.hasTokenLast = true ∧ pcmd = filledCommand heap (lineBody line) pass := by
  rw [parseCommand_run calloc some_]
  cases run : checkTokens .start (tokens (unmarked (lineBody line))) with
  | error e => simp [bind, Except.bind]
  | ok pass =>
      obtain ⟨-, strings, -, -, -, words⟩ := checkTokens_counts run
      by_cases last : pass.hasTokenLast = true
      · have found := (words last).resolve_left nofun
        have filled_ : pass.totalStrings ≠ 0 := by
          rw [strings]
          have positive := List.length_pos_of_ne_nil found
          omega
        simp only [bind, Except.bind, filled_, last, ↓reduceIte, Bool.true_eq_false, Except.ok.injEq,
          exists_eq_left', true_and]
        cases heap.realloc with
        | false => exact ⟨nofun, fun both => nomatch both.1⟩
        | true => exact ⟨fun same => ⟨rfl, (Except.ok.inj same).symm⟩, fun both => both.2 ▸ rfl⟩
      · by_cases none_ : pass.totalStrings = 0
        · simp [bind, Except.bind, throw, throwThe, MonadExceptOf.throw, none_, last]
        · simp [bind, Except.bind, throw, throwThe, MonadExceptOf.throw, none_, last]

/-- Without memory for the command there is no result. -/
theorem parseCommand_calloc (parsed : parseCommand heap line = .ok pcmd) : heap.calloc = true := by
  by_contra failed
  rw [parseCommand, Bool.not_eq_true _ |>.mp failed] at parsed
  cases parsed

theorem countP_isOutput (ts : List Token) :
    ts.countP Token.isOutput = ts.count .output + ts.count .append := by
  induction ts with
  | nil => rfl
  | cons t rest ih =>
      cases t <;> simp [ih] <;> omega

theorem segments_length (ts : List Token) : (segments ts).length = ts.count .pipe + 1 := by
  induction ts with
  | nil => rfl
  | cons t rest ih =>
      by_cases pipe : t = .pipe
      · rw [pipe, segments_pipe, List.length_cons, ih, List.count_cons_self]
      · rw [segments_other pipe, List.length_modifyHead, ih, List.count_cons_of_ne pipe]

theorem slots_length (ts : List Token) :
    (slots ts).length = ts.count .pipe + (args ts).length := by
  fun_induction slots ts with
  | case1 => rfl
  | case2 bytes rest ih => simp [args, ih]; omega
  | case3 rest ih => simp [args, ih]; omega
  | case4 bytes rest ih => simp [args, ih]
  | case5 bytes rest ih => simp [args, ih]
  | case6 bytes rest ih => simp [args, ih]
  | case7 t rest notWord notPipe noInput noOutput noAppend ih =>
      rw [args, ih, List.count_cons_of_ne notPipe]
      · exact notWord
      · exact noInput
      · exact noOutput
      · exact noAppend

/-- What the first pass has checked is what the second relies on. -/
theorem Accepted.checked (accepted : Accepted ts) (run : checkTokens .start ts = .ok pass) :
    Checked pass.isFileAppend ts where
  noBackground := accepted.noBackground
  followed := accepted.followed
  inputOnce := accepted.inputOnce
  outputOnce := accepted.outputOnce
  appends := fun member => by
    rw [(checkTokens_counts run).2.2.1]
    simp [member]
  truncates := fun member => by
    have once := accepted.outputOnce
    rw [countP_isOutput] at once
    have here : 0 < ts.count .output := List.count_pos_iff.mpr member
    have absent : Token.append ∉ ts := List.count_eq_zero.mp (by omega)
    rw [(checkTokens_counts run).2.2.1]
    simp [absent, FirstPass.start]

theorem forall₂_getElem? {α β : Type} {R : α → β → Prop} {xs : List α} {ys : List β}
    (related : List.Forall₂ R xs ys) (i : Nat) : Option.Rel R xs[i]? ys[i]? := by
  induction related generalizing i with
  | nil => exact .none
  | cons here later ih =>
      cases i with
      | zero => exact .some here
      | succ i => exact ih i

/-- A word that the second pass has ended reads as itself. -/
theorem WordAt.str {string : List UInt8} {pointer : Nat} {word : List UInt8}
    (at_ : WordAt 0 isWordByte text string pointer word) (intact : Intact isWordByte text string)
    (noNul : ∀ c ∈ text, c ≠ 0) : stringAt 0 string pointer = word := by
  apply at_.reads intact
  intro member
  exact noNul 0 (List.drop_subset _ _ (at_.begins.subset member)) rfl

theorem WordAt.strs {string : List UInt8} {pointers : List Nat} {words : List (List UInt8)}
    (reads : List.Forall₂ (WordAt 0 isWordByte text string) pointers words)
    (intact : Intact isWordByte text string) (noNul : ∀ c ∈ text, c ≠ 0) :
    pointers.map (stringAt 0 string) = words := by
  induction reads with
  | nil => rfl
  | cons here later ih => rw [List.map_cons, WordAt.str here intact noNul, ih]

theorem Names.str {string : List UInt8} {after : Option Nat} {name : Option (List UInt8)}
    (names : Names text string none after name) (intact : Intact isWordByte text string)
    (noNul : ∀ c ∈ text, c ≠ 0) : after.map (stringAt 0 string) = name := by
  cases name with
  | none =>
      rw [show after = none from names]
      rfl
  | some bytes =>
      obtain ⟨pointer, rfl, at_⟩ := names
      rw [Option.map_some, WordAt.str at_ intact noNul]

/-- The second pass over an accepted line fills in its parse. -/
theorem Accepted.isParse (accepted : Accepted (tokens (unmarked (lineBody line))))
    (run : checkTokens .start (tokens (unmarked (lineBody line))) = .ok pass)
    (noNul : ∀ c ∈ line, c ≠ 0) : IsParse (lineBody line) (filledCommand heap (lineBody line) pass) := by
  have plain : ∀ c ∈ unmarked (lineBody line), c ≠ 0 := fun c member =>
    noNul c ((unmarked_sublist line).subset member)
  have stored : Stored _ (.start heap (unmarked (lineBody line))) _ _ := secondLoop_stored _
    (unmarked_atToken (lineBody_atToken line)) (List.suffix_refl _) (Nat.le_refl _)
    (by simp [SecondPass.start]) (accepted.checked run)
  have intact : Intact isWordByte (unmarked (lineBody line))
    (filledCommand heap (lineBody line) pass).string := by
    apply stored.intact
    intro i c here _
    have inside : i < (unmarked (lineBody line)).length := by
      rw [List.getElem?_eq_some_iff] at here
      exact here.1
    rw [SecondPass.start, List.getElem?_append_left inside]
    exact here
  obtain ⟨pipes, -, appends, -⟩ := checkTokens_counts run
  obtain ⟨pointers, arguments, points⟩ := stored.arguments
  have numCommands : (filledCommand heap (lineBody line) pass).numCommands =
      (segments (tokens (unmarked (lineBody line)))).length := by
    rw [segments_length]
    show pass.numCommands + 1 = _
    rw [pipes]
    exact congrArg (· + 1) (Nat.zero_add _)
  have commands : (filledCommand heap (lineBody line) pass).commands =
      0 :: heads 0 (tokens (unmarked (lineBody line))) := stored.commands
  have lists := untilNull_heads accepted.followed accepted.noBackground [] pointers points
  rw [List.length_nil] at lists
  have stored' : (filledCommand heap (lineBody line) pass).arguments = pointers ++ [none] :=
    congrArg (· ++ [none]) arguments
  refine ⟨rfl, ?_, stored.stdinFile.str intact plain, stored.stdoutFile.str intact plain, numCommands,
    ?_, ?_, ?_⟩
  · show pass.isFileAppend = _
    rw [appends]
    exact Bool.false_or _
  · rw [commands, lists.length_eq, argLists, List.length_map, numCommands]
  · intro i
    have read := forall₂_getElem? lists i
    rw [argLists, List.getElem?_map] at read
    rw [ParsedCommand.argv, commands]
    generalize (0 :: heads 0 (tokens (unmarked (lineBody line))))[i]? = start at read ⊢
    generalize ((segments (tokens (unmarked (lineBody line))))[i]?).map args = words at read ⊢
    cases read with
    | none => rfl
    | some here =>
        obtain ⟨found, read, reads⟩ := here
        rw [List.nil_append] at read
        rw [Option.bind_some, stored', read, Option.map_some]
        exact congrArg some (WordAt.strs reads intact plain)
  · rw [stored', List.length_append, points.length_eq, slots_length, numCommands, segments_length,
      List.length_singleton]
    omega

theorem checkTokens_iff_accepted (ts : List Token) :
    (∃ pass, checkTokens .start ts = .ok pass ∧ pass.hasTokenLast = true) ↔ Accepted ts := by
  have grammar := checkTokens_accepts .start ts
  have start : decide (0 < FirstPass.start.numCommands) = false := rfl
  rw [start] at grammar
  exact grammar.trans acceptedFrom_start

/-- What is returned for a line with a body is its parse. -/
theorem parseCommand_isParse (parsed : parseCommand heap line = .ok pcmd) (some_ : lineBody line ≠ [])
    (noNul : ∀ c ∈ line, c ≠ 0) :
    Accepted (tokens (unmarked (lineBody line))) ∧ IsParse (lineBody line) pcmd := by
  obtain ⟨-, pass, run, last, rfl⟩ := (parseCommand_ok (parseCommand_calloc parsed) some_).mp parsed
  have accepted := (checkTokens_iff_accepted _).mp ⟨pass, run, last⟩
  exact ⟨accepted, accepted.isParse run noNul⟩

/-- The first command of a line that is not blank has a first word. -/
theorem parseCommand_words (parsed : parseCommand heap line = .ok pcmd) (some_ : lineBody line ≠ [])
    (noNul : ∀ c ∈ line, c ≠ 0) : ∃ name rest, pcmd.argv 0 = some (name :: rest) := by
  obtain ⟨accepted, parse⟩ := parseCommand_isParse parsed some_ noNul
  have first := parse.argv 0
  have filled := accepted.filled
  have some_' := segments_ne_nil (tokens (unmarked (lineBody line)))
  cases parts : segments (tokens (unmarked (lineBody line))) with
  | nil => exact absurd parts some_'
  | cons segment others =>
      rw [parts] at first filled
      cases words : args segment with
      | nil => exact absurd words (filled segment List.mem_cons_self)
      | cons name rest =>
          rw [List.getElem?_cons_zero, Option.map_some, words] at first
          exact ⟨name, rest, first⟩

/-- With memory to be had, the parser accepts exactly the lines of the grammar, and returns their
parse. -/
theorem parseCommand_grammar (line : CommandLine) (calloc : heap.calloc = true)
    (realloc : heap.realloc = true) :
    ((∃ pcmd, parseCommand heap line.bytes = .ok pcmd) ↔
      lineBody line.bytes = [] ∨ Accepted (tokens (unmarked (lineBody line.bytes)))) ∧
    ∀ pcmd, parseCommand heap line.bytes = .ok pcmd →
      (lineBody line.bytes = [] → pcmd = .zeroed) ∧
      (lineBody line.bytes ≠ [] → IsParse (lineBody line.bytes) pcmd) := by
  by_cases empty : lineBody line.bytes = []
  · have run := parseCommand_empty calloc empty
    refine ⟨⟨fun _ => .inl empty, fun _ => ⟨_, run⟩⟩, ?_⟩
    intro pcmd parsed
    rw [run] at parsed
    exact ⟨fun _ => (Except.ok.inj parsed).symm, fun some_ => absurd empty some_⟩
  · constructor
    · constructor
      · rintro ⟨pcmd, parsed⟩
        exact .inr (parseCommand_isParse parsed empty line.noNul).1
      · intro either
        have accepted := either.resolve_left empty
        obtain ⟨pass, run, last⟩ := (checkTokens_iff_accepted _).mpr accepted
        exact ⟨_, (parseCommand_ok calloc empty).mpr ⟨realloc, pass, run, last, rfl⟩⟩
    · intro pcmd parsed
      exact ⟨fun nothing => absurd nothing empty,
        fun _ => (parseCommand_isParse parsed empty line.noNul).2⟩

/-- `a<b|c>>d&` -/
def sampleLine : CommandLine where
  bytes := [97, less, 98, bar, 99, greater, greater, 100, ampersand]
  noNul := by simp [less, greater, bar, ampersand]
  ascii := by simp [less, greater, bar, ampersand]

theorem parseCommand_grammar_sample :
    Accepted (tokens (unmarked (lineBody sampleLine.bytes))) ∧
      ∃ pcmd, parseCommand ⟨true, true, 7⟩ sampleLine.bytes = .ok pcmd ∧
        IsParse (lineBody sampleLine.bytes) pcmd := by
  have grammar := @parseCommand_grammar ⟨true, true, 7⟩ sampleLine rfl rfl
  have some_ : lineBody sampleLine.bytes ≠ [] := by decide
  exact ⟨(grammar.1.mp ⟨_, rfl⟩).resolve_left some_, _, rfl, (grammar.2 _ rfl).2 some_⟩

end PennOs.Util
