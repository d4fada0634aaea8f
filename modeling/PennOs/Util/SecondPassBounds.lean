import PennOs.Util.SecondPassBlock

set_option autoImplicit false

/- The second pass on a line that has passed the first: the block that it was given is filled exactly. -/
namespace PennOs.Util

open CutStrings
open PennOs.Shell (isSpace)

variable {line text : List UInt8} {block : Block} {pass : FirstPass} {heap : Heap} {ts : List Token}

/-- The text from `start` to `end` that both passes go over. -/
def passText (line : List UInt8) : List UInt8 := (takeBackground (trimEnd (skipSpace (cutComment line)))).2

/-- A pointer into the string is stored somewhere. -/
def Block.Points (block : Block) (pointer : Nat) : Prop :=
  some (some pointer) ∈ block.arguments ∨ block.stdinFile = some pointer ∨ block.stdoutFile = some pointer

/-- The string behind a stored pointer. -/
def Block.str (block : Block) (pointer : Nat) : List UInt8 := stringAt 0 block.string pointer

/-- Each of `total_strings + num_commands` cells and `num_commands` heads is stored, and every pointer is
one into the `slen + 1` bytes, to a string that ends where its token in the line does. -/
structure FillsBlock (text : List UInt8) (pass : FirstPass) (block : Block) : Prop where
  cells : block.arguments.length = pass.totalStrings + (pass.numCommands + 1)
  heads : block.commands.length = pass.numCommands + 1
  bytes : block.string.length = text.length + 1
  stored : ∀ cell ∈ block.arguments, ∃ value, cell = some value
  headed : ∀ head ∈ block.commands, ∃ start < block.arguments.length, head = some start
  inside : ∀ pointer, block.Points pointer → pointer < text.length + 1
  ends : ∀ pointer, block.Points pointer →
    block.str pointer = (text.drop pointer).takeWhile isWordByte
  words : block.arguments.map (Option.map (Option.map block.str)) = (slots (tokens text) ++ [none]).map some
  stdinFile : block.stdinFile.map block.str = inputFile (tokens text)
  stdoutFile : block.stdoutFile.map block.str = outputFile (tokens text)

theorem passText_eq (line : List UInt8) : passText line = unmarked (lineBody line) := by
  have body : trimEnd (skipSpace (cutComment line)) = lineBody line := by
    rw [trimEnd_eq, skipSpace_eq, cutComment_eq]
    rfl
  rw [passText, body, takeBackground_body]

section Result

theorem heads_inside (ts : List Token) : ∀ k, ∀ start ∈ heads k ts, start ≤ k + (slots ts).length := by
  fun_induction slots ts with
  | case1 => intro k start member; cases member
  | case2 bytes rest ih =>
      intro k start member
      have inside := ih (k + 1) start member
      rw [List.length_cons]
      omega
  | case3 rest ih =>
      intro k start member
      rw [List.length_cons]
      rcases List.mem_cons.mp member with rfl | later
      · omega
      · have inside := ih (k + 1) start later
        omega
  | case4 bytes rest ih => exact ih
  | case5 bytes rest ih => exact ih
  | case6 bytes rest ih => exact ih
  | case7 t rest notWord notPipe noInput noOutput noAppend ih =>
      intro k start member
      rw [heads] at member
      · exact ih k start member
      · exact notWord
      · exact notPipe
      · exact noInput
      · exact noOutput
      · exact noAppend

theorem reads_of_points {string : List UInt8} {pointers : List (Option Nat)}
    {words : List (Option (List UInt8))}
    (points : List.Forall₂ (Points text string) pointers words) (intact : Intact isWordByte text string)
    (noNul : ∀ c ∈ text, c ≠ 0) : pointers.map (Option.map (stringAt 0 string)) = words := by
  induction points with
  | nil => rfl
  | cons here later ih =>
      cases here with
      | none => rw [List.map_cons, ih, Option.map_none]
      | some at_ => rw [List.map_cons, ih, Option.map_some, WordAt.str at_ intact noNul]

theorem exists_word {string : List UInt8} {pointers : List (Option Nat)}
    {words : List (Option (List UInt8))} {pointer : Nat}
    (points : List.Forall₂ (Points text string) pointers words) (member : some pointer ∈ pointers) :
    ∃ bytes, WordAt 0 isWordByte text string pointer bytes := by
  induction points with
  | nil => cases member
  | cons here later ih =>
      rcases List.mem_cons.mp member with first | rest
      · subst first
        cases here with
        | some at_ => exact ⟨_, at_⟩
      · exact ih rest

/-- The block before the first turn. -/
theorem new_holds (heap : Heap) (text : List UInt8) (pass : FirstPass) : ∃ block,
    (Block.new heap text pass).putCommand = some block ∧
      Holds (pass.totalStrings + (pass.numCommands + 1)) (pass.numCommands + 1) text block
        (.start heap text) := by
  have size : (Block.new heap text pass).commands.length = pass.numCommands + 1 := List.length_replicate
  obtain ⟨commands, written, length, held⟩ := Cells.held_append (a := some 0)
    (List.nil_prefix (l := (Block.new heap text pass).commands)) (by rw [size]; exact Nat.succ_pos _)
  have bytes : (Block.new heap text pass).string.length = text.length + 1 := by
    rw [Block.new, List.length_append, List.length_singleton]
  refine ⟨{ Block.new heap text pass with commands }, ?_, List.length_replicate, length.trans size, bytes,
    rfl, rfl, rfl, held, List.nil_prefix, rfl, rfl⟩
  unfold Block.putCommand
  exact congrArg (Option.bind · _) written

/-- The block behind the last turn, with its last NULL. -/
theorem last_fills {after : SecondPass} {cells heads : Nat} (holds : Holds cells heads text block after)
    (room : after.arguments.length + 1 = cells) (full : after.commands.length = heads) :
    ∃ block', block.putNull = some block' ∧ block'.arguments = (after.arguments ++ [none]).map some ∧
      block'.commands = after.commands.map some ∧ block'.string = after.string ∧
      block'.stdinFile = after.stdinFile ∧ block'.stdoutFile = after.stdoutFile := by
  have fits : (after.arguments.map some).length < block.arguments.length := by
    rw [List.length_map, holds.cells]
    omega
  obtain ⟨arguments, written, length, held⟩ := Cells.held_append (a := some none) holds.arguments fits
  rw [List.length_map, ← holds.argvPtr] at written
  refine ⟨{ block with arguments }, ?_, ?_, ?_, holds.string, holds.stdinFile, holds.stdoutFile⟩
  · unfold Block.putNull
    exact congrArg (Option.bind · _) written
  · rw [List.map_append]
    symm
    apply held.eq_of_length
    rw [List.length_append, List.length_map, List.length_singleton, length, holds.cells, room]
  · symm
    apply holds.commands.eq_of_length
    rw [List.length_map, holds.heads, full]

end Result

/-- What is in the block is what the second pass over the list of bytes returns. -/
structure Block.Is (block : Block) (pcmd : ParsedCommand) : Prop where
  stdinFile : block.stdinFile = pcmd.stdinFile
  stdoutFile : block.stdoutFile = pcmd.stdoutFile
  commands : block.commands = pcmd.commands.map some
  arguments : block.arguments = pcmd.arguments.map some
  string : block.string = pcmd.string

section Steps

variable {body : List UInt8}

/-- The second pass over the text of an accepted line. -/
theorem secondLoop_start (heap : Heap) (atToken : AtToken text) (accepted : Accepted (tokens text))
    (run : checkTokens .start (tokens text) = .ok pass) :
    Stored text (.start heap text)
      (secondLoop pass.isFileAppend text text.length (.start heap text) text) (tokens text) := by
  apply secondLoop_stored _ atToken (List.suffix_refl _) (Nat.le_refl _) _ (accepted.checked run)
  rw [SecondPass.start, List.length_append, List.length_singleton]

/-- The sizes that the first pass has counted are those that the second pass fills. -/
theorem secondLoop_sizes {after : SecondPass} (accepted : Accepted (tokens text))
    (run : checkTokens .start (tokens text) = .ok pass)
    (stored : Stored text (.start heap text) after (tokens text)) :
    after.arguments.length = (slots (tokens text)).length ∧
      after.arguments.length + 1 = pass.totalStrings + (pass.numCommands + 1) ∧
      after.commands.length = pass.numCommands + 1 := by
  obtain ⟨pipes, strings, -⟩ := checkTokens_counts run
  have start : FirstPass.start.numCommands = 0 ∧ FirstPass.start.totalStrings = 0 := ⟨rfl, rfl⟩
  have size := slots_length (tokens text)
  obtain ⟨pointers, arguments, points⟩ := stored.arguments
  have count := points.length_eq
  have lists := (untilNull_heads accepted.followed accepted.noBackground [] pointers points).length_eq
  rw [argLists, List.length_map, segments_length, List.length_nil] at lists
  have commands : after.commands = 0 :: heads 0 (tokens text) := stored.commands
  have length : after.arguments.length = pointers.length := by
    rw [arguments]
    exact congrArg List.length (List.nil_append pointers)
  rw [commands]
  omega

/-- Every store of the second pass is inside the block. -/
theorem blockPass_is (heap : Heap) (atToken : AtToken (unmarked body))
    (accepted : Accepted (tokens (unmarked body)))
    (run : checkTokens .start (tokens (unmarked body)) = .ok pass) :
    ∃ block, blockPass heap (unmarked body) pass = some block ∧
      block.Is (filledCommand heap body pass) ∧ block.string.length = (unmarked body).length + 1 := by
  have stored := secondLoop_start heap atToken accepted run
  obtain ⟨slots_, cells, heads_⟩ := secondLoop_sizes accepted run stored
  obtain ⟨block₁, headed, holds⟩ := new_holds heap (unmarked body) pass
  have room : Room (pass.totalStrings + (pass.numCommands + 1)) (pass.numCommands + 1)
      (tokens (unmarked body)) (SecondPass.start heap (unmarked body)) := by
    have none_ : (SecondPass.start heap (unmarked body)).arguments.length = 0 := rfl
    have one : (SecondPass.start heap (unmarked body)).commands.length = 1 := rfl
    have pipes := (checkTokens_counts run).1
    have start : FirstPass.start.numCommands = 0 := rfl
    constructor <;> omega
  have first : AtToken ((unmarked body).drop 0) := atToken
  obtain ⟨block₂, looped, holds'⟩ := blockLoop_holds (unmarked body).length first (Nat.zero_le _)
    (Nat.le_refl _) holds (accepted.checked run) room
  rw [List.drop_zero] at holds'
  obtain ⟨block, ended, arguments, commands, string, stdinFile, stdoutFile⟩ :=
    last_fills holds' cells heads_
  refine ⟨block, ?_, ⟨stdinFile, stdoutFile, commands, arguments, string⟩, ?_⟩
  · simp only [blockPass, headed, Option.bind_eq_bind, Option.bind_some, looped, ended]
  · rw [string, ← holds'.string, holds'.bytes]

/-- A pointer that the second pass has stored is one to a word. -/
theorem filledCommand_word {pointer : Nat} (stored : Stored (unmarked body) (.start heap (unmarked body))
      (secondLoop pass.isFileAppend (unmarked body) (unmarked body).length
        (.start heap (unmarked body)) (unmarked body)) (tokens (unmarked body)))
    (is_ : block.Is (filledCommand heap body pass)) (points : block.Points pointer) :
    ∃ bytes, WordAt 0 isWordByte (unmarked body) block.string pointer bytes := by
  rw [is_.string]
  have file : ∀ {after : Option Nat} {name : Option (List UInt8)}, after = some pointer →
      Names (unmarked body) (filledCommand heap body pass).string none after name →
      ∃ bytes, WordAt 0 isWordByte (unmarked body) (filledCommand heap body pass).string pointer bytes := by
    intro after name isPointer names
    cases name with
    | none => cases isPointer.symm.trans names
    | some bytes =>
        obtain ⟨other, same, at_⟩ := names
        cases isPointer.symm.trans same
        exact ⟨bytes, at_⟩
  rcases points with argument | input | output
  · obtain ⟨pointers, arguments, reads⟩ := stored.arguments
    rw [is_.arguments, List.mem_map] at argument
    obtain ⟨value, member, same⟩ := argument
    cases same
    rcases List.mem_append.mp member with inside | last
    · rw [arguments] at inside
      exact exists_word reads inside
    · cases List.mem_singleton.mp last
  · exact file (is_.stdinFile.symm.trans input) stored.stdinFile
  · exact file (is_.stdoutFile.symm.trans output) stored.stdoutFile

end Steps

/-- On a line that the first pass has gone through, every store of the second pass is inside the block,
the block is filled, and the strings are cut at the ends of their tokens. -/
theorem blockPass_fills (heap : Heap) (noNul : ∀ c ∈ line, c ≠ 0)
    (run : firstLoop (passText line).length .start (passText line) = .ok pass)
    (last : pass.hasTokenLast = true) :
    ∃ block, blockPass heap (passText line) pass = some block ∧
      FillsBlock (passText line) pass block := by
  rw [passText_eq] at run ⊢
  have atToken := unmarked_atToken (lineBody_atToken line)
  have plain : ∀ c ∈ unmarked (lineBody line), c ≠ 0 := fun c member =>
    noNul c ((unmarked_sublist line).subset member)
  rw [firstLoop_tokens _ atToken (Nat.le_refl _)] at run
  have accepted := (checkTokens_iff_accepted _).mp ⟨pass, run, last⟩
  have stored := secondLoop_start heap atToken accepted run
  have intact : Intact isWordByte (unmarked (lineBody line))
      (filledCommand heap (lineBody line) pass).string := by
    apply stored.intact
    intro i c here _
    have inside := (List.getElem?_eq_some_iff.mp here).1
    rw [SecondPass.start, List.getElem?_append_left inside]
    exact here
  obtain ⟨slots_, cells, heads_⟩ := secondLoop_sizes accepted run stored
  obtain ⟨block, filled, is_, bytes⟩ := blockPass_is heap atToken accepted run
  have parse : IsParse (lineBody line) (filledCommand heap (lineBody line) pass) :=
    accepted.isParse run noNul
  have strs : block.str = stringAt 0 (filledCommand heap (lineBody line) pass).string := by
    funext pointer
    rw [Block.str, is_.string]
  have size : block.arguments.length = pass.totalStrings + (pass.numCommands + 1) := by
    rw [is_.arguments, List.length_map, filledCommand, List.length_append]
    exact cells
  refine ⟨block, filled, size, ?_, bytes, ?_, ?_, ?_, ?_, ?_, ?_, ?_⟩
  · rw [is_.commands, List.length_map]
    exact heads_
  · intro cell member
    rw [is_.arguments, List.mem_map] at member
    obtain ⟨value, _, same⟩ := member
    exact ⟨value, same.symm⟩
  · intro head member
    rw [is_.commands, List.mem_map] at member
    obtain ⟨start, inside, same⟩ := member
    refine ⟨start, ?_, same.symm⟩
    have commands : (filledCommand heap (lineBody line) pass).commands =
        0 :: heads 0 (tokens (unmarked (lineBody line))) := stored.commands
    rw [commands] at inside
    rcases List.mem_cons.mp inside with rfl | later
    · omega
    · have bound := heads_inside (tokens (unmarked (lineBody line))) 0 start later
      omega
  · intro pointer points
    obtain ⟨word, at_⟩ := filledCommand_word stored is_ points
    have inside := (List.getElem?_eq_some_iff.mp at_.ended).1
    omega
  · intro pointer points
    obtain ⟨word, at_⟩ := filledCommand_word stored is_ points
    rw [is_.string] at at_
    rw [strs, WordAt.str at_ intact plain]
    exact (at_.maximal intact fun member => plain 0 member rfl).symm
  · obtain ⟨pointers, arguments, reads⟩ := stored.arguments
    have cells_ : (filledCommand heap (lineBody line) pass).arguments = pointers ++ [none] :=
      congrArg (· ++ [none]) arguments
    rw [strs, is_.arguments, cells_, List.map_map, ← reads_of_points reads intact plain,
      List.map_append, List.map_append, List.map_map]
    rfl
  · rw [is_.stdinFile, strs]
    exact parse.stdinFile
  · rw [is_.stdoutFile, strs]
    exact parse.stdoutFile

/-- `ls|w>o` -/
theorem blockPass_fills_pipeline : ∃ block,
    blockPass ⟨true, true, 0⟩ (passText [108, 115, bar, 119, greater, 111])
      ⟨1, false, 2, true, false, true⟩ = some block ∧
    FillsBlock (passText [108, 115, bar, 119, greater, 111]) ⟨1, false, 2, true, false, true⟩ block :=
  blockPass_fills _ (by decide +kernel) (by rfl) rfl

end PennOs.Util
