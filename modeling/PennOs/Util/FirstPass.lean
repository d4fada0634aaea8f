import PennOs.Util.CommandGrammar

set_option autoImplicit false

/- The first pass of the parser accepts the token lists of the grammar. -/
namespace PennOs.Util

open PennOs.Shell (isSpace)

variable {c : UInt8} {rest text cur : List UInt8} {pass pass' : FirstPass} {ts : List Token}

/-- The first pass over tokens. -/
def checkTokens (pass : FirstPass) : List Token → Except ParserError FirstPass
  | [] => .ok pass
  | .background :: _ => .error .unexpectedAmpersand
  | .word _ :: rest =>
      checkTokens { pass with hasTokenLast := true, totalStrings := pass.totalStrings + 1 } rest
  | .pipe :: rest =>
      if pass.hasFileOutput = true then .error .unexpectedFileOutput
      else if pass.hasTokenLast = false then .error .unexpectedPipeline
      else checkTokens { pass with hasTokenLast := false, numCommands := pass.numCommands + 1 } rest
  | .input :: .word _ :: rest =>
      if pass.numCommands > 0 ∨ pass.hasFileInput = true then .error .unexpectedFileInput
      else checkTokens { pass with hasFileInput := true } rest
  | .input :: _ =>
      if pass.numCommands > 0 ∨ pass.hasFileInput = true then .error .unexpectedFileInput
      else .error .expectInputFilename
  | .output :: .word _ :: rest =>
      if pass.hasFileOutput = true then .error .unexpectedFileOutput
      else checkTokens { pass with hasFileOutput := true } rest
  | .output :: _ =>
      if pass.hasFileOutput = true then .error .unexpectedFileOutput else .error .expectOutputFilename
  | .append :: .word _ :: rest =>
      if pass.hasFileOutput = true then .error .unexpectedFileOutput
      else checkTokens { pass with isFileAppend := true, hasFileOutput := true } rest
  | .append :: _ =>
      if pass.hasFileOutput = true then .error .unexpectedFileOutput else .error .expectOutputFilename

section Counting

theorem firstTurn_strings (run : firstTurn pass cur = .ok (pass', rest)) :
    pass'.totalStrings ≤ pass.totalStrings + 1 := by
  cases cur with
  | nil =>
      cases run
      exact Nat.le_succ _
  | cons c tail =>
      simp only [firstTurn] at run
      repeat' split at run
      all_goals cases run
      all_goals simp only [Nat.le_succ, Nat.le_refl]

theorem firstLoop_strings {fuel : Nat} (run : firstLoop fuel pass cur = .ok pass') :
    pass'.totalStrings ≤ pass.totalStrings + fuel := by
  induction fuel generalizing pass cur with
  | zero =>
      cases run
      exact Nat.le_refl _
  | succ fuel ih =>
      cases cur with
      | nil =>
          cases run
          exact Nat.le_add_right _ _
      | cons c tail =>
          rw [firstLoop] at run
          cases turn : firstTurn pass (c :: tail) with
          | error error =>
              rw [turn] at run
              cases run
          | ok after =>
              rw [turn] at run
              have one := firstTurn_strings turn
              have more := ih run
              omega

/-- The words of a line of fewer than `2 ^ 31` bytes are counted in an `int`. -/
theorem firstLoop_int (short : text.length < 2 ^ 31) (run : firstLoop text.length .start text = .ok pass) :
    pass.totalStrings < 2 ^ 31 := by
  have count := firstLoop_strings run
  simp only [FirstPass.start] at count
  omega

end Counting

/-- A cursor at the end, or at a byte that is no space. -/
def AtToken (cur : List UInt8) : Prop := ∀ c, cur.head? = some c → isSpace c = false

theorem skipSpace_atToken (text : List UInt8) : AtToken (skipSpace text) := by
  induction text with
  | nil => exact nofun
  | cons c rest ih =>
      rw [skipSpace]
      by_cases space : isSpace c = true
      · rw [if_pos space]
        exact ih
      · rw [if_neg space]
        intro d head
        rw [← Option.some.inj head]
        simpa using space

theorem skipSpace_length (text : List UInt8) : (skipSpace text).length ≤ text.length := by
  rw [skipSpace_eq]
  exact (List.dropWhile_sublist isSpace).length_le

theorem skipWord_length (text : List UInt8) : (skipWord text).length ≤ text.length := by
  rw [skipWord_eq]
  exact (List.dropWhile_sublist isWordByte).length_le

theorem skipWord_of_not (other : isWordByte c = false) : skipWord (c :: rest) = c :: rest := by
  rw [skipWord, if_neg (by simp [other])]

theorem skipWord_shorter (wordByte : isWordByte c = true) :
    (skipWord (c :: rest)).length < (c :: rest).length := by
  rw [skipWord, if_pos wordByte, List.length_cons]
  have shorter := skipWord_length rest
  omega

/-- What is left of a file name's scan: a word is taken, or there is none at the cursor. -/
theorem name_cases (atToken : AtToken cur) :
    (skipWord cur).length < cur.length ∧
        tokens cur = .word (cur.takeWhile isWordByte) :: tokens (skipWord cur) ∨
      cur.length ≤ (skipWord cur).length ∧ (tokens cur).head?.any Token.isWord = false := by
  cases cur with
  | nil => exact .inr ⟨Nat.le_refl _, by rw [tokens_nil]; rfl⟩
  | cons c rest =>
      have notSpace := atToken c rfl
      by_cases wordByte : isWordByte c = true
      · refine .inl ⟨skipWord_shorter wordByte, ?_⟩
        rw [tokens_word wordByte, List.takeWhile_cons_of_pos wordByte, skipWord, if_pos wordByte]
      · refine .inr ⟨by rw [skipWord_of_not (by simpa using wordByte)], ?_⟩
        by_cases amp : c = ampersand
        · rw [amp, tokens_ampersand]
          rfl
        by_cases lt : c = less
        · rw [lt, tokens_less]
          rfl
        by_cases gt : c = greater
        · rw [gt, tokens_greater]
          split <;> rfl
        by_cases pipe : c = bar
        · rw [pipe, tokens_bar]
          rfl
        · exact absurd (isWordByte_of notSpace amp lt gt pipe) wordByte

/-- Behind a redirection without a file name the token pass stops as the first pass does. -/
theorem checkTokens_noName (noName : ts.head?.any Token.isWord = false) :
    checkTokens pass (.input :: ts) =
        (if pass.numCommands > 0 ∨ pass.hasFileInput = true then .error .unexpectedFileInput
        else .error .expectInputFilename) ∧
      checkTokens pass (.output :: ts) =
        (if pass.hasFileOutput = true then .error .unexpectedFileOutput
        else .error .expectOutputFilename) ∧
      checkTokens pass (.append :: ts) =
        (if pass.hasFileOutput = true then .error .unexpectedFileOutput
        else .error .expectOutputFilename) := by
  cases ts with
  | nil => exact ⟨rfl, rfl, rfl⟩
  | cons t rest =>
      cases t with
      | word bytes => cases noName
      | _ => exact ⟨rfl, rfl, rfl⟩

/-- What a turn of the first pass at `cur` has to do with the tokens from `cur` on. -/
def TurnAgrees (pass : FirstPass) (cur : List UInt8) :
    Except ParserError (FirstPass × List UInt8) → Prop
  | .error e => checkTokens pass (tokens cur) = .error e
  | .ok (pass', cur') =>
      cur'.length < cur.length ∧ checkTokens pass (tokens cur) = checkTokens pass' (tokens cur')

/-- The turn of `<`, whose file name is looked for in `name`. -/
theorem input_agrees {name : List UInt8} (atToken : AtToken name) (shorter : name.length ≤ rest.length)
    (here : tokens (less :: rest) = .input :: tokens name) :
    TurnAgrees pass (less :: rest)
      (if pass.numCommands > 0 ∨ pass.hasFileInput = true then .error .unexpectedFileInput
      else if name.length ≤ (skipWord name).length then .error .expectInputFilename
      else .ok ({ pass with hasFileInput := true }, skipWord name)) := by
  rcases name_cases atToken with ⟨taken, named⟩ | ⟨stuck, noName⟩
  · by_cases seen : pass.numCommands > 0 ∨ pass.hasFileInput = true
    · rw [if_pos seen, TurnAgrees, here, named, checkTokens, if_pos seen]
    · rw [if_neg seen, if_neg (Nat.not_le.mpr taken), TurnAgrees, here, named, checkTokens, if_neg seen,
        List.length_cons]
      exact ⟨by omega, rfl⟩
  · have stops := (@checkTokens_noName pass _ noName).1
    by_cases seen : pass.numCommands > 0 ∨ pass.hasFileInput = true
    · rw [if_pos seen, TurnAgrees, here, stops, if_pos seen]
    · rw [if_neg seen, if_pos stuck, TurnAgrees, here, stops, if_neg seen]

/-- The turn of `>` or `>>`, whose file name is looked for in `name`. -/
theorem output_agrees {name : List UInt8} {t : Token} {next : FirstPass} (atToken : AtToken name)
    (shorter : name.length ≤ rest.length) (here : tokens (greater :: rest) = t :: tokens name)
    (steps : ∀ bytes ts, checkTokens pass (t :: .word bytes :: ts) =
      if pass.hasFileOutput = true then .error .unexpectedFileOutput else checkTokens next ts)
    (stops : ∀ ts : List Token, ts.head?.any Token.isWord = false → checkTokens pass (t :: ts) =
      if pass.hasFileOutput = true then .error .unexpectedFileOutput
      else .error .expectOutputFilename) :
    TurnAgrees pass (greater :: rest)
      (if pass.hasFileOutput = true then .error .unexpectedFileOutput
      else if name.length ≤ (skipWord name).length then .error .expectOutputFilename
      else .ok (next, skipWord name)) := by
  rcases name_cases atToken with ⟨taken, named⟩ | ⟨stuck, noName⟩
  · by_cases seen : pass.hasFileOutput = true
    · rw [if_pos seen, TurnAgrees, here, named, steps, if_pos seen]
    · rw [if_neg seen, if_neg (Nat.not_le.mpr taken), TurnAgrees, here, named, steps, if_neg seen,
        List.length_cons]
      exact ⟨by omega, rfl⟩
  · by_cases seen : pass.hasFileOutput = true
    · rw [if_pos seen, TurnAgrees, here, stops _ noName, if_pos seen]
    · rw [if_neg seen, if_pos stuck, TurnAgrees, here, stops _ noName, if_neg seen]

/-- One turn of the first pass takes the tokens that one step of the token pass takes. -/
theorem firstTurn_agrees (atToken : AtToken (c :: rest)) :
    TurnAgrees pass (c :: rest) (firstTurn pass (c :: rest)) := by
  have notSpace := atToken c rfl
  rw [firstTurn]
  by_cases amp : c = ampersand
  · rw [if_pos amp, amp, TurnAgrees, tokens_ampersand]
    rfl
  rw [if_neg amp]
  by_cases lt : c = less
  · rw [if_pos lt, lt]
    apply input_agrees (skipSpace_atToken rest) (skipSpace_length rest)
    rw [tokens_less, tokens_skipSpace]
  rw [if_neg lt]
  by_cases gt : c = greater
  · rw [if_pos gt, gt]
    by_cases second : rest.head? = some greater
    · simp only [second, ↓reduceIte]
      have shorter := skipSpace_length rest.tail
      rw [List.length_tail] at shorter
      apply output_agrees (skipSpace_atToken rest.tail) (Nat.le_trans shorter (Nat.sub_le _ _))
      · rw [tokens_greater, if_pos second, tokens_skipSpace]
      · exact fun _ _ => rfl
      · exact fun _ noName => (checkTokens_noName noName).2.2
    · simp only [second, ↓reduceIte]
      apply output_agrees (skipSpace_atToken rest) (skipSpace_length rest)
      · rw [tokens_greater, if_neg second, tokens_skipSpace]
      · exact fun _ _ => rfl
      · exact fun _ noName => (checkTokens_noName noName).2.1
  rw [if_neg gt]
  by_cases pipe : c = bar
  · rw [if_pos pipe, pipe]
    by_cases seen : pass.hasFileOutput = true
    · rw [if_pos seen, TurnAgrees, tokens_bar, checkTokens, if_pos seen]
    rw [if_neg seen]
    by_cases noToken : pass.hasTokenLast = false
    · rw [if_pos noToken, TurnAgrees, tokens_bar, checkTokens, if_neg seen, if_pos noToken]
    · rw [if_neg noToken, TurnAgrees, tokens_bar, checkTokens, if_neg seen, if_neg noToken]
      exact ⟨Nat.lt_succ_self _, rfl⟩
  rw [if_neg pipe]
  have wordByte := isWordByte_of notSpace amp lt gt pipe
  rw [TurnAgrees, tokens_word wordByte, checkTokens]
  refine ⟨skipWord_shorter wordByte, ?_⟩
  rw [skipWord, if_pos wordByte]

/-- The first pass over a text is the token pass over its tokens. -/
theorem firstLoop_tokens (fuel : Nat) (atToken : AtToken cur) (enough : cur.length ≤ fuel) :
    firstLoop fuel pass cur = checkTokens pass (tokens cur) := by
  induction fuel generalizing pass cur with
  | zero =>
      obtain rfl := List.eq_nil_of_length_eq_zero (Nat.le_zero.mp enough)
      rw [tokens_nil]
      rfl
  | succ fuel ih =>
      cases cur with
      | nil =>
          rw [tokens_nil]
          rfl
      | cons c rest =>
          have turn := @firstTurn_agrees _ _ pass atToken
          rw [firstLoop]
          cases taken : firstTurn pass (c :: rest) with
          | error e =>
              rw [taken, TurnAgrees] at turn
              rw [turn]
              rfl
          | ok next =>
              obtain ⟨pass', cur⟩ := next
              rw [taken, TurnAgrees] at turn
              rw [turn.2, ← tokens_skipSpace cur]
              have shorter := skipSpace_length cur
              exact ih (skipSpace_atToken cur) (by omega)

end PennOs.Util
