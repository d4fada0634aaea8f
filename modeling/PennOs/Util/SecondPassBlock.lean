import PennOs.Lib.Cells
import PennOs.Util.ParserGrammar

set_option autoImplicit false

/- The second pass on the block that `realloc` gives it. Cursors are offsets, which may run past `end`, and
every store is checked against the array it goes to. -/
namespace PennOs.Util

open CutStrings
open PennOs.Shell (isSpace)

/-- `skip_space(&cur, end)` -/
def skipSpaceFrom (text : List UInt8) (cur : Nat) : Nat :=
  cur + ((text.drop cur).takeWhile isSpace).length

/-- `skip_word(&cur, end)` -/
def skipWordFrom (text : List UInt8) (cur : Nat) : Nat :=
  cur + ((text.drop cur).takeWhile isWordByte).length

/-- The block: its arrays have the sizes that it was allocated for, and a cell that nothing is stored in
yet is `none`. -/
structure Block where
  stdinFile : Option Nat
  stdoutFile : Option Nat
  commands : List (Option Nat)
  arguments : List (Option (Option Nat))
  string : List UInt8
  curCmd : Nat
  argvPtr : Nat
  deriving DecidableEq, Repr

namespace Block

/-- The block behind `realloc` and `memcpy`. -/
def new (heap : Heap) (text : List UInt8) (pass : FirstPass) : Block where
  stdinFile := none
  stdoutFile := none
  commands := List.replicate (pass.numCommands + 1) none
  arguments := List.replicate (pass.totalStrings + (pass.numCommands + 1)) none
  string := text ++ [heap.fresh]
  curCmd := 0
  argvPtr := 0

/-- `new_start + cur`, where that is in the string. -/
def pointer (block : Block) (cur : Nat) : Option Nat :=
  if cur < block.string.length then some cur else none

/-- `*(argv_ptr++) = value` -/
def putArgument (value : Option Nat) (block : Block) : Option Block := do
  let arguments ← Cells.write block.arguments block.argvPtr (some value)
  return { block with arguments, argvPtr := block.argvPtr + 1 }

/-- `*argv_ptr = NULL` -/
def putNull (block : Block) : Option Block := do
  let arguments ← Cells.write block.arguments block.argvPtr (some none)
  return { block with arguments }

/-- `pcmd->commands[cur_cmd] = argv_ptr` -/
def putCommand (block : Block) : Option Block := do
  let commands ← Cells.write block.commands block.curCmd (some block.argvPtr)
  return { block with commands }

/-- `new_start[cur] = '\0'` -/
def terminate (cur : Nat) (block : Block) : Option Block := do
  let string ← Cells.write block.string cur 0
  return { block with string }

end Block

/-- The `switch` of the second pass. -/
def blockTurn (append : Bool) (text : List UInt8) (block : Block) (cur : Nat) : Option (Block × Nat) := do
  let c ← text[cur]?
  if c = less then
    let name := skipSpaceFrom text (cur + 1)
    let pointer ← block.pointer name
    let cur := skipWordFrom text name
    let block ← { block with stdinFile := some pointer }.terminate cur
    return (block, cur)
  else if c = greater then
    let name := skipSpaceFrom text (if append then cur + 2 else cur + 1)
    let pointer ← block.pointer name
    let cur := skipWordFrom text name
    let block ← { block with stdoutFile := some pointer }.terminate cur
    return (block, cur)
  else if c = bar then
    let block ← block.putArgument none
    let block ← { block with curCmd := block.curCmd + 1 }.putCommand
    return (block, cur + 1)
  else
    let pointer ← block.pointer cur
    let block ← block.putArgument (some pointer)
    let cur := skipWordFrom text cur
    let block ← block.terminate cur
    return (block, cur)

/-- The loop of the second pass; `none` too where it does not come to `end` in so many turns. -/
def blockLoop (append : Bool) (text : List UInt8) : Nat → Block → Nat → Option Block
  | 0, block, cur => if cur < text.length then none else some block
  | fuel + 1, block, cur =>
      if cur < text.length then do
        let (block, cur) ← blockTurn append text block cur
        blockLoop append text fuel block (skipSpaceFrom text cur)
      else some block

/-- The second pass, from the first head to the last NULL. -/
def blockPass (heap : Heap) (text : List UInt8) (pass : FirstPass) : Option Block := do
  let block ← (Block.new heap text pass).putCommand
  let block ← blockLoop pass.isFileAppend text text.length block 0
  block.putNull

variable {text : List UInt8} {append : Bool} {block block' : Block} {pass : SecondPass}
  {cells heads cur i : Nat} {ts : List Token}

section Cursors

theorem drop_length_takeWhile (p : UInt8 → Bool) (text : List UInt8) :
    text.drop (text.takeWhile p).length = text.dropWhile p := by
  have split : (text.takeWhile p ++ text.dropWhile p).drop (text.takeWhile p).length =
      text.dropWhile p := List.drop_left
  rwa [List.takeWhile_append_dropWhile] at split

theorem drop_skipWordFrom (text : List UInt8) (cur : Nat) :
    text.drop (skipWordFrom text cur) = skipWord (text.drop cur) := by
  rw [skipWordFrom, ← List.drop_drop, skipWord_eq, drop_length_takeWhile]

theorem drop_skipSpaceFrom (text : List UInt8) (cur : Nat) :
    text.drop (skipSpaceFrom text cur) = skipSpace (text.drop cur) := by
  rw [skipSpaceFrom, ← List.drop_drop, skipSpace_eq, drop_length_takeWhile]

theorem skipWordFrom_le (inside : cur ≤ text.length) : skipWordFrom text cur ≤ text.length := by
  have shorter := (List.takeWhile_sublist isWordByte (l := text.drop cur)).length_le
  rw [List.length_drop] at shorter
  unfold skipWordFrom
  omega

theorem skipSpaceFrom_le (inside : cur ≤ text.length) : skipSpaceFrom text cur ≤ text.length := by
  have shorter := (List.takeWhile_sublist isSpace (l := text.drop cur)).length_le
  rw [List.length_drop] at shorter
  unfold skipSpaceFrom
  omega

theorem offset_drop (inside : cur ≤ text.length) : offset text (text.drop cur) = cur := by
  rw [offset, List.length_drop]
  omega

end Cursors

/-- The block has its sizes, and holds what the pass has stored. -/
structure Holds (cells heads : Nat) (text : List UInt8) (block : Block) (pass : SecondPass) : Prop where
  cells : block.arguments.length = cells
  heads : block.commands.length = heads
  bytes : block.string.length = text.length + 1
  stdinFile : block.stdinFile = pass.stdinFile
  stdoutFile : block.stdoutFile = pass.stdoutFile
  string : block.string = pass.string
  commands : pass.commands.map some <+: block.commands
  arguments : pass.arguments.map some <+: block.arguments
  argvPtr : block.argvPtr = pass.arguments.length
  curCmd : block.curCmd + 1 = pass.commands.length

section Stores

theorem pointer_run (holds : Holds cells heads text block pass) (inside : cur ≤ text.length) :
    block.pointer cur = some cur := by
  apply if_pos
  rw [holds.bytes]
  omega

theorem putArgument_holds (value : Option Nat) (holds : Holds cells heads text block pass)
    (room : pass.arguments.length < cells) :
    ∃ block', block.putArgument value = some block' ∧
      Holds cells heads text block' { pass with arguments := pass.arguments ++ [value] } := by
  have length : (pass.arguments.map some).length = block.argvPtr := by
    rw [List.length_map, holds.argvPtr]
  have fits : (pass.arguments.map some).length < block.arguments.length := by
    rw [List.length_map, holds.cells]
    exact room
  obtain ⟨arguments, written, size, held⟩ := Cells.held_append (a := some value) holds.arguments fits
  rw [length] at written
  refine ⟨{ block with arguments, argvPtr := block.argvPtr + 1 }, ?_, ?_⟩
  · simp only [Block.putArgument, written]
    rfl
  · refine ⟨size.trans holds.cells, holds.heads, holds.bytes, holds.stdinFile, holds.stdoutFile,
      holds.string, holds.commands, ?_, ?_, holds.curCmd⟩
    · rw [List.map_append]
      exact held
    · rw [List.length_append, List.length_singleton]
      exact congrArg (· + 1) holds.argvPtr

theorem putCommand_holds (holds : Holds cells heads text block pass)
    (room : pass.commands.length < heads) :
    ∃ block', { block with curCmd := block.curCmd + 1 }.putCommand = some block' ∧
      Holds cells heads text block' { pass with commands := pass.commands ++ [pass.arguments.length] } := by
  have length : (pass.commands.map some).length = block.curCmd + 1 := by
    rw [List.length_map, holds.curCmd]
  have fits : (pass.commands.map some).length < block.commands.length := by
    rw [List.length_map, holds.heads]
    exact room
  obtain ⟨commands, written, size, held⟩ :=
    Cells.held_append (a := some block.argvPtr) holds.commands fits
  rw [length] at written
  refine ⟨{ block with commands, curCmd := block.curCmd + 1 }, ?_, ?_⟩
  · simp only [Block.putCommand, written]
    rfl
  · refine ⟨holds.cells, size.trans holds.heads, holds.bytes, holds.stdinFile, holds.stdoutFile,
      holds.string, ?_, holds.arguments, holds.argvPtr, ?_⟩
    · rw [List.map_append, List.map_singleton, ← holds.argvPtr]
      exact held
    · rw [List.length_append, List.length_singleton]
      exact congrArg (· + 1) holds.curCmd

theorem terminate_holds (holds : Holds cells heads text block pass) (inside : cur ≤ text.length) :
    ∃ block', block.terminate cur = some block' ∧
      Holds cells heads text block' { pass with string := pass.string.set cur 0 } := by
  have fits : cur < block.string.length := by
    rw [holds.bytes]
    omega
  refine ⟨{ block with string := block.string.set cur 0 }, ?_, ?_⟩
  · simp only [Block.terminate, Cells.write_run fits]
    rfl
  · refine ⟨holds.cells, holds.heads, ?_, holds.stdinFile, holds.stdoutFile, ?_, holds.commands,
      holds.arguments, holds.argvPtr, holds.curCmd⟩
    · rw [List.length_set]
      exact holds.bytes
    · show block.string.set cur 0 = pass.string.set cur 0
      rw [holds.string]

end Stores

/-- What the tokens ahead need is what the arrays have left, up to the last NULL. -/
structure Room (cells heads : Nat) (ts : List Token) (pass : SecondPass) : Prop where
  cells : pass.arguments.length + (slots ts).length + 1 = cells
  heads : pass.commands.length + ts.count .pipe = heads

/-- A turn has come to `cur`, and the rest of the text is still in step with what has been stored. -/
structure Ahead (cells heads : Nat) (append : Bool) (text : List UInt8) (i : Nat) (block : Block)
    (pass : SecondPass) (cur : Nat) : Prop where
  forward : i < cur
  inside : cur ≤ text.length
  holds : Holds cells heads text block pass
  checked : Checked append (tokens (text.drop cur))
  room : Room cells heads (tokens (text.drop cur)) pass

section Turns

theorem slots_redirection {t : Token} {bytes : List UInt8} (redirects : t.isRedirection = true) :
    slots (t :: .word bytes :: ts) = slots ts := by
  cases t with
  | input => rfl
  | output => rfl
  | append => rfl
  | _ => cases redirects

theorem Room.redirection {t : Token} {bytes : List UInt8}
    (room : Room cells heads (t :: .word bytes :: ts) pass) (redirects : t.isRedirection = true) :
    Room cells heads ts pass := by
  have notPipe : t ≠ .pipe := by
    rintro rfl
    cases redirects
  refine ⟨?_, ?_⟩
  · have same : slots (t :: .word bytes :: ts) = slots ts := slots_redirection redirects
    rw [← same]
    exact room.cells
  · have heads := room.heads
    rw [List.count_cons_of_ne notPipe, List.count_cons_of_ne (by simp)] at heads
    exact heads

/-- The turn of a redirection whose name is looked for from `start` on. -/
theorem redirect_ahead {t : Token} {start : Nat} {pass' : SecondPass} {next : Block}
    (forward : i < start) (inside : start ≤ text.length) (redirects : t.isRedirection = true)
    (holds : Holds cells heads text next pass')
    (checked : Checked append (t :: tokens (text.drop start)))
    (room : Room cells heads (t :: tokens (text.drop start)) pass') :
    ∃ block', next.terminate (skipWordFrom text (skipSpaceFrom text start)) = some block' ∧
      Ahead cells heads append text i block'
        { pass' with string := pass'.string.set (skipWordFrom text (skipSpaceFrom text start)) 0 }
        (skipWordFrom text (skipSpaceFrom text start)) := by
  have named := checked.fileName redirects
  rw [← drop_skipSpaceFrom, ← drop_skipWordFrom] at named
  rw [named] at checked room
  have name := skipSpaceFrom_le inside
  have ends := skipWordFrom_le name
  obtain ⟨block', ended, holds'⟩ := terminate_holds holds ends
  have left := room.redirection redirects
  refine ⟨block', ended, ?_, ends, holds', checked.tail.tail, left.cells, left.heads⟩
  unfold skipWordFrom skipSpaceFrom
  omega

theorem Holds.setStdin (holds : Holds cells heads text block pass) (pointer : Option Nat) :
    Holds cells heads text { block with stdinFile := pointer } { pass with stdinFile := pointer } :=
  ⟨holds.cells, holds.heads, holds.bytes, rfl, holds.stdoutFile, holds.string, holds.commands,
    holds.arguments, holds.argvPtr, holds.curCmd⟩

theorem Holds.setStdout (holds : Holds cells heads text block pass) (pointer : Option Nat) :
    Holds cells heads text { block with stdoutFile := pointer } { pass with stdoutFile := pointer } :=
  ⟨holds.cells, holds.heads, holds.bytes, holds.stdinFile, rfl, holds.string, holds.commands,
    holds.arguments, holds.argvPtr, holds.curCmd⟩

/-- The second `>` is skipped exactly where there is one. -/
theorem output_start (more : i < text.length) (gt : text[i] = greater)
    (checked : Checked append (tokens (text.drop i))) :
    ∃ t : Token, t.isRedirection = true ∧
      (if append then i + 2 else i + 1) ≤ text.length ∧
      tokens (text.drop i) = t :: tokens (text.drop (if append then i + 2 else i + 1)) ∧
      text.drop (if append then i + 2 else i + 1) =
        if append then (text.drop (i + 1)).tail else text.drop (i + 1) := by
  have split : text.drop i = text[i] :: text.drop (i + 1) := List.drop_eq_getElem_cons more
  rw [split, gt, tokens_greater] at checked ⊢
  by_cases second : (text.drop (i + 1)).head? = some greater
  · rw [if_pos second] at checked ⊢
    have flag := checked.appends List.mem_cons_self
    have inside : i + 1 < text.length := by
      rw [List.head?_drop] at second
      exact (List.getElem?_eq_some_iff.mp second).1
    simp only [flag, ↓reduceIte, List.tail_drop]
    exact ⟨.append, rfl, inside, rfl, trivial⟩
  · rw [if_neg second] at checked ⊢
    have flag := checked.truncates List.mem_cons_self
    simp only [flag, Bool.false_eq_true, ↓reduceIte]
    exact ⟨.output, rfl, more, rfl, trivial⟩

/-- A turn of the second pass stays inside its arrays, and comes to where the list of bytes says. -/
theorem blockTurn_ahead (more : i < text.length) (atToken : AtToken (text.drop i))
    (holds : Holds cells heads text block pass) (checked : Checked append (tokens (text.drop i)))
    (room : Room cells heads (tokens (text.drop i)) pass) :
    ∃ block' cur, blockTurn append text block i = some (block', cur) ∧
      (secondTurn append text pass (text.drop i)).2 = text.drop cur ∧
      Ahead cells heads append text i block' (secondTurn append text pass (text.drop i)).1 cur := by
  have split : text.drop i = text[i] :: text.drop (i + 1) := List.drop_eq_getElem_cons more
  have read : text[i]? = some text[i] := List.getElem?_eq_getElem more
  have behind : i + 1 ≤ text.length := more
  have notSpace := atToken text[i] (by rw [split, List.head?_cons])
  by_cases amp : text[i] = ampersand
  · rw [split, amp, tokens_ampersand] at checked
    exact absurd List.mem_cons_self checked.noBackground
  by_cases lt : text[i] = less
  · rw [split, lt, tokens_less] at checked room
    have name := skipSpaceFrom_le behind
    have ends := skipWordFrom_le name
    have stored := holds.setStdin (some (skipSpaceFrom text (i + 1)))
    have room' : Room cells heads (.input :: tokens (text.drop (i + 1)))
        { pass with stdinFile := some (skipSpaceFrom text (i + 1)) } := ⟨room.cells, room.heads⟩
    obtain ⟨block', ended, ahead⟩ :=
      redirect_ahead (t := .input) (Nat.lt_succ_self i) behind rfl stored checked room'
    refine ⟨block', skipWordFrom text (skipSpaceFrom text (i + 1)), ?_, ?_, ?_⟩
    · simp only [blockTurn, read, lt, ↓reduceIte, Option.bind_eq_bind, Option.bind_some,
        pointer_run holds name, ended]
      rfl
    · rw [split, secondTurn, if_pos lt, drop_skipWordFrom, drop_skipSpaceFrom]
    · rw [split, secondTurn, if_pos lt]
      simp only [← drop_skipSpaceFrom, ← drop_skipWordFrom, offset_drop name, offset_drop ends]
      exact ahead
  by_cases gt : text[i] = greater
  · obtain ⟨t, redirects, inside, shape, start⟩ := output_start more gt checked
    rw [shape] at checked room
    generalize starts : (if append then i + 2 else i + 1) = begin at *
    have forward : i < begin := by
      split at starts <;> omega
    have name := skipSpaceFrom_le inside
    have ends := skipWordFrom_le name
    have stored := holds.setStdout (some (skipSpaceFrom text begin))
    have room' : Room cells heads (t :: tokens (text.drop begin))
        { pass with stdoutFile := some (skipSpaceFrom text begin) } := ⟨room.cells, room.heads⟩
    obtain ⟨block', ended, ahead⟩ := redirect_ahead forward inside redirects stored checked room'
    refine ⟨block', skipWordFrom text (skipSpaceFrom text begin), ?_, ?_, ?_⟩
    · simp only [blockTurn, read, gt, ↓reduceIte, Option.bind_eq_bind, Option.bind_some, starts,
        pointer_run holds name, ended]
      rfl
    · rw [split, secondTurn, if_neg lt, if_pos gt, ← start, drop_skipWordFrom, drop_skipSpaceFrom]
    · rw [split, secondTurn, if_neg lt, if_pos gt, ← start]
      simp only [← drop_skipSpaceFrom, ← drop_skipWordFrom, offset_drop name, offset_drop ends]
      exact ahead
  by_cases pipe : text[i] = bar
  · rw [split, pipe, tokens_bar] at checked room
    have cellsLeft := room.cells
    have headsLeft := room.heads
    rw [slots, List.length_cons] at cellsLeft
    rw [List.count_cons_self] at headsLeft
    obtain ⟨block₁, put, holds₁⟩ := putArgument_holds none holds (by omega)
    obtain ⟨block₂, headed, holds₂⟩ := putCommand_holds holds₁
      (show pass.commands.length < heads by omega)
    refine ⟨block₂, i + 1, ?_, ?_, ?_⟩
    · simp only [blockTurn, read, pipe, ↓reduceIte, Option.bind_eq_bind, Option.bind_some, put, headed]
      rfl
    · rw [split, secondTurn, if_neg lt, if_neg gt, if_pos pipe]
    · rw [split, secondTurn, if_neg lt, if_neg gt, if_pos pipe]
      rw [List.length_append, List.length_singleton] at holds₂
      refine ⟨Nat.lt_succ_self i, behind, holds₂, checked.tail, ?_, ?_⟩
      · rw [List.length_append, List.length_singleton]
        omega
      · rw [List.length_append, List.length_singleton]
        omega
  · have wordByte := isWordByte_of notSpace amp lt gt pipe
    have same : skipWord (text[i] :: text.drop (i + 1)) = skipWord (text.drop (i + 1)) := by
      rw [skipWord, if_pos wordByte]
    have ends := skipWordFrom_le (Nat.le_of_lt more)
    have drops : text.drop (skipWordFrom text i) = skipWord (text.drop (i + 1)) := by
      rw [drop_skipWordFrom, split, same]
    rw [split, tokens_word wordByte, ← drops] at checked room
    have cellsLeft := room.cells
    have headsLeft := room.heads
    rw [slots, List.length_cons] at cellsLeft
    rw [List.count_cons_of_ne (by simp)] at headsLeft
    obtain ⟨block₁, put, holds₁⟩ := putArgument_holds (some i) holds (by omega)
    obtain ⟨block₂, ended, holds₂⟩ := terminate_holds holds₁ ends
    refine ⟨block₂, skipWordFrom text i, ?_, ?_, ?_⟩
    · simp only [blockTurn, read, lt, gt, pipe, ↓reduceIte, Option.bind_eq_bind, Option.bind_some,
        pointer_run holds (Nat.le_of_lt more), put, ended]
      rfl
    · rw [split, secondTurn, if_neg lt, if_neg gt, if_neg pipe]
      exact same.trans drops.symm
    · have first : offset text (text[i] :: text.drop (i + 1)) = i := by
        rw [← split, offset_drop (Nat.le_of_lt more)]
      rw [split, secondTurn, if_neg lt, if_neg gt, if_neg pipe]
      simp only [first, same, ← drops, offset_drop ends]
      refine ⟨?_, ends, holds₂, checked.tail, ?_, headsLeft⟩
      · unfold skipWordFrom
        rw [split, List.takeWhile_cons_of_pos wordByte, List.length_cons]
        omega
      · rw [List.length_append, List.length_singleton]
        omega

end Turns

section Pass

variable {fuel : Nat} {heap : Heap} {first : FirstPass}

theorem blockLoop_step (more : i < text.length)
    (turn : blockTurn append text block i = some (block', cur)) :
    blockLoop append text (fuel + 1) block i =
      blockLoop append text fuel block' (skipSpaceFrom text cur) := by
  rw [blockLoop, if_pos more, turn]
  rfl

theorem blockLoop_holds (fuel : Nat) (atToken : AtToken (text.drop i)) (inside : i ≤ text.length)
    (enough : text.length - i ≤ fuel) (holds : Holds cells heads text block pass)
    (checked : Checked append (tokens (text.drop i)))
    (room : Room cells heads (tokens (text.drop i)) pass) :
    ∃ block', blockLoop append text fuel block i = some block' ∧
      Holds cells heads text block' (secondLoop append text fuel pass (text.drop i)) := by
  induction fuel generalizing block pass i with
  | zero =>
      have ended : ¬ i < text.length := by omega
      exact ⟨block, if_neg ended, holds⟩
  | succ fuel ih =>
      by_cases more : i < text.length
      swap
      · rw [List.drop_eq_nil_of_le (by omega)]
        exact ⟨block, if_neg more, holds⟩
      obtain ⟨block₁, cur, turn, rest, ahead⟩ := blockTurn_ahead more atToken holds checked room
      have split : text.drop i = text[i] :: text.drop (i + 1) := List.drop_eq_getElem_cons more
      have next := skipSpaceFrom_le ahead.inside
      have forward := ahead.forward
      have later : cur ≤ skipSpaceFrom text cur := Nat.le_add_right _ _
      have drops := drop_skipSpaceFrom text cur
      have same : tokens (text.drop (skipSpaceFrom text cur)) = tokens (text.drop cur) := by
        rw [drops, tokens_skipSpace]
      obtain ⟨block', run, holds'⟩ := ih (i := skipSpaceFrom text cur)
        (by rw [drops]; exact skipSpace_atToken _) next (by omega) ahead.holds
        (same ▸ ahead.checked) (same ▸ ahead.room)
      refine ⟨block', (blockLoop_step more turn).trans run, ?_⟩
      rw [split] at rest holds' ⊢
      rw [drops, ← rest] at holds'
      exact holds'

end Pass

end PennOs.Util
