import Mathlib.Data.List.Forall2
import PennOs.Util.AcceptedLines

set_option autoImplicit false

/- What the second pass of the parser stores. -/
namespace PennOs.Util

open CutStrings
open PennOs.Shell (isSpace)

variable {c : UInt8} {rest text cur name bytes : List UInt8} {ts : List Token} {append : Bool}
  {pass pass' pass'' : SecondPass}

/-- The argument array that the tokens ask for, without its last NULL. -/
def slots : List Token → List (Option (List UInt8))
  | [] => []
  | .word bytes :: rest => some bytes :: slots rest
  | .pipe :: rest => none :: slots rest
  | .input :: .word _ :: rest => slots rest
  | .output :: .word _ :: rest => slots rest
  | .append :: .word _ :: rest => slots rest
  | _ :: rest => slots rest

/-- Where the argument lists behind the first one begin, if that one is at `k`. -/
def heads (k : Nat) : List Token → List Nat
  | [] => []
  | .word _ :: rest => heads (k + 1) rest
  | .pipe :: rest => (k + 1) :: heads (k + 1) rest
  | .input :: .word _ :: rest => heads k rest
  | .output :: .word _ :: rest => heads k rest
  | .append :: .word _ :: rest => heads k rest
  | _ :: rest => heads k rest

/-- What the second pass relies on; `append` is the flag that the first pass left. -/
structure Checked (append : Bool) (ts : List Token) : Prop where
  noBackground : .background ∉ ts
  followed : Followed ts
  inputOnce : ts.count .input ≤ 1
  outputOnce : ts.countP Token.isOutput ≤ 1
  appends : .append ∈ ts → append = true
  truncates : .output ∈ ts → append = false

theorem Checked.tail {t : Token} (checked : Checked append (t :: ts)) : Checked append ts where
  noBackground := fun member => checked.noBackground (List.mem_cons_of_mem _ member)
  followed := checked.followed.2
  inputOnce := Nat.le_trans List.count_le_count_cons checked.inputOnce
  outputOnce := Nat.le_trans (by rw [List.countP_cons]; omega) checked.outputOnce
  appends := fun member => checked.appends (List.mem_cons_of_mem _ member)
  truncates := fun member => checked.truncates (List.mem_cons_of_mem _ member)

/-- A file name that is set by the tokens, or not. -/
def Names (text string : List UInt8) (before after : Option Nat) : Option (List UInt8) → Prop
  | none => after = before
  | some bytes => ∃ pointer, after = some pointer ∧ WordAt 0 isWordByte text string pointer bytes

/-- A pointer of the argument array and what it should point to. -/
abbrev Points (text string : List UInt8) : Option Nat → Option (List UInt8) → Prop :=
  Option.Rel (WordAt 0 isWordByte text string)

/-- The second pass over the tokens, from one state to another. -/
structure Stored (text : List UInt8) (before after : SecondPass) (ts : List Token) : Prop where
  cuts : Cuts 0 before.string after.string
  intact : Intact isWordByte text before.string → Intact isWordByte text after.string
  arguments : ∃ pointers, after.arguments = before.arguments ++ pointers ∧
    List.Forall₂ (Points text after.string) pointers (slots ts)
  commands : after.commands = before.commands ++ heads before.arguments.length ts
  stdinFile : Names text after.string before.stdinFile after.stdinFile (inputFile ts)
  stdoutFile : Names text after.string before.stdoutFile after.stdoutFile (outputFile ts)

theorem Stored.nil : Stored text pass pass [] where
  cuts := Cuts.refl _
  intact := id
  arguments := ⟨[], by simp, .nil⟩
  commands := by simp [heads]
  stdinFile := rfl
  stdoutFile := rfl

theorem Stored.word {p e : Nat}
    (here : WordAt 0 isWordByte text (pass.string.set e 0) p bytes)
    (safe : Intact isWordByte text pass.string → Intact isWordByte text (pass.string.set e 0))
    (later : Stored text { pass with
      arguments := pass.arguments ++ [some p]
      string := pass.string.set e 0 } pass' ts) : Stored text pass pass' (.word bytes :: ts) where
  cuts := (Cuts.set _ _).trans later.cuts
  intact := fun intact => later.intact (safe intact)
  arguments := by
    obtain ⟨pointers, stored, points⟩ := later.arguments
    refine ⟨some p :: pointers, ?_, .cons (.some (here.cut later.cuts)) points⟩
    rw [stored, List.append_assoc]
    rfl
  commands := by
    have commands := later.commands
    rw [List.length_append, List.length_singleton] at commands
    exact commands
  stdinFile := later.stdinFile
  stdoutFile := later.stdoutFile

theorem Stored.pipe (later : Stored text { pass with
      arguments := pass.arguments ++ [none]
      commands := pass.commands ++ [pass.arguments.length + 1] } pass' ts) :
    Stored text pass pass' (.pipe :: ts) where
  cuts := later.cuts
  intact := later.intact
  arguments := by
    obtain ⟨pointers, stored, points⟩ := later.arguments
    refine ⟨none :: pointers, ?_, .cons .none points⟩
    rw [stored, List.append_assoc]
    rfl
  commands := by
    have commands := later.commands
    rw [List.length_append, List.length_singleton, List.append_assoc] at commands
    exact commands
  stdinFile := later.stdinFile
  stdoutFile := later.stdoutFile

theorem Stored.input {p e : Nat} (only : inputFile ts = none)
    (here : WordAt 0 isWordByte text (pass.string.set e 0) p bytes)
    (safe : Intact isWordByte text pass.string → Intact isWordByte text (pass.string.set e 0))
    (later : Stored text { pass with
      stdinFile := some p
      string := pass.string.set e 0 } pass' ts) :
    Stored text pass pass' (.input :: .word bytes :: ts) where
  cuts := (Cuts.set _ _).trans later.cuts
  intact := fun intact => later.intact (safe intact)
  arguments := later.arguments
  commands := later.commands
  stdinFile := by
    have kept := later.stdinFile
    rw [only] at kept
    exact ⟨p, kept, here.cut later.cuts⟩
  stdoutFile := later.stdoutFile

theorem Stored.output {t : Token} {p e : Nat} (outputs : t.isOutput = true)
    (only : outputFile ts = none)
    (here : WordAt 0 isWordByte text (pass.string.set e 0) p bytes)
    (safe : Intact isWordByte text pass.string → Intact isWordByte text (pass.string.set e 0))
    (later : Stored text { pass with
      stdoutFile := some p
      string := pass.string.set e 0 } pass' ts) :
    Stored text pass pass' (t :: .word bytes :: ts) := by
  have kept := later.stdoutFile
  rw [only] at kept
  have named : Names text pass'.string pass.stdoutFile pass'.stdoutFile (some bytes) :=
    ⟨p, kept, here.cut later.cuts⟩
  cases t with
  | output =>
      exact ⟨(Cuts.set _ _).trans later.cuts, fun intact => later.intact (safe intact),
        later.arguments, later.commands, later.stdinFile, named⟩
  | append =>
      exact ⟨(Cuts.set _ _).trans later.cuts, fun intact => later.intact (safe intact),
        later.arguments, later.commands, later.stdinFile, named⟩
  | _ => cases outputs

theorem inputFile_none (absent : .input ∉ ts) : inputFile ts = none := by
  fun_induction inputFile ts with
  | case1 => rfl
  | case2 bytes rest => exact absurd List.mem_cons_self absent
  | case3 t rest other ih => exact ih fun member => absent (List.mem_cons_of_mem _ member)

theorem outputFile_none (absent : ∀ t ∈ ts, t.isOutput = false) : outputFile ts = none := by
  fun_induction outputFile ts with
  | case1 => rfl
  | case2 bytes rest => exact absurd (absent _ List.mem_cons_self) nofun
  | case3 bytes rest => exact absurd (absent _ List.mem_cons_self) nofun
  | case4 t rest notOutput notAppend ih => exact ih fun t member => absent t (List.mem_cons_of_mem _ member)

theorem Checked.inputFile_tail {t : Token} (checked : Checked append (.input :: t :: ts)) :
    inputFile ts = none := by
  apply inputFile_none
  have once := checked.inputOnce
  rw [List.count_cons_self] at once
  have none_ : List.count .input (t :: ts) = 0 := by omega
  exact fun member => List.count_eq_zero.mp none_ (List.mem_cons_of_mem _ member)

theorem Checked.outputFile_tail {t t' : Token} (outputs : t.isOutput = true)
    (checked : Checked append (t :: t' :: ts)) : outputFile ts = none := by
  apply outputFile_none
  have once := checked.outputOnce
  rw [List.countP_cons_of_pos outputs] at once
  have none_ : List.countP Token.isOutput (t' :: ts) = 0 := by omega
  intro t member
  simpa using List.countP_eq_zero.mp none_ t (List.mem_cons_of_mem _ member)

theorem drop_offset (suffix : cur <:+ text) : text.drop (offset text cur) = cur :=
  (List.suffix_iff_eq_drop.mp suffix).symm

theorem skipWord_suffix (text : List UInt8) : skipWord text <:+ text := by
  rw [skipWord_eq]
  exact List.dropWhile_suffix _

theorem skipSpace_suffix (text : List UInt8) : skipSpace text <:+ text := by
  rw [skipSpace_eq]
  exact List.dropWhile_suffix _

/-- The name at a cursor is ended by the NUL behind it, and no other word is hurt. -/
theorem cut_name {string : List UInt8} (suffix : name <:+ text)
    (length : string.length = text.length + 1) :
    WordAt 0 isWordByte text (string.set (offset text (skipWord name)) 0) (offset text name)
        (name.takeWhile isWordByte) ∧
      (Intact isWordByte text string →
        Intact isWordByte text (string.set (offset text (skipWord name)) 0)) := by
  have behind := (skipWord_suffix name).trans suffix
  constructor
  · refine ⟨?_, fun a member => List.mem_takeWhile_imp member, ?_⟩
    · rw [drop_offset suffix]
      exact List.takeWhile_prefix isWordByte
    · have split : (name.takeWhile isWordByte).length + (skipWord name).length = name.length := by
        rw [skipWord_eq, ← List.length_append, List.takeWhile_append_dropWhile]
      have fits := suffix.length_le
      have end_ : offset text name + (name.takeWhile isWordByte).length =
          offset text (skipWord name) := by
        simp only [offset]
        omega
      rw [end_]
      apply List.getElem?_set_self
      simp only [offset]
      omega
  · intro intact
    apply intact.set
    intro a here
    rw [← Nat.add_zero (offset text (skipWord name)), ← List.getElem?_drop, drop_offset behind] at here
    rw [skipWord_eq] at here
    have stops := List.head?_dropWhile_not isWordByte name
    rw [← List.head?_eq_getElem?] at here
    rw [here] at stops
    exact stops

/-- A redirection's file name begins at the first word byte behind it. -/
theorem Checked.fileName {t : Token} (checked : Checked append (t :: tokens rest))
    (redirects : t.isRedirection = true) :
    tokens rest =
      .word ((skipSpace rest).takeWhile isWordByte) :: tokens (skipWord (skipSpace rest)) := by
  have named := checked.followed.1 redirects
  rw [← tokens_skipSpace rest] at named ⊢
  rcases name_cases (skipSpace_atToken rest) with ⟨-, split⟩ | ⟨-, noName⟩
  · exact split
  · rw [noName] at named
    cases named

/-- The second pass over a text that the first has checked. -/
theorem secondLoop_stored (fuel : Nat) (atToken : AtToken cur) (suffix : cur <:+ text)
    (enough : cur.length ≤ fuel) (length : pass.string.length = text.length + 1)
    (checked : Checked append (tokens cur)) :
    Stored text pass (secondLoop append text fuel pass cur) (tokens cur) := by
  induction fuel generalizing pass cur with
  | zero =>
      obtain rfl := List.eq_nil_of_length_eq_zero (Nat.le_zero.mp enough)
      rw [tokens_nil]
      exact Stored.nil
  | succ fuel ih =>
      cases cur with
      | nil =>
          rw [tokens_nil]
          exact Stored.nil
      | cons c rest =>
          have notSpace := atToken c rfl
          have behind : rest <:+ text := (List.suffix_cons c rest).trans suffix
          have enough' : rest.length ≤ fuel := Nat.le_of_succ_le_succ enough
          -- every turn but a pipe's writes one NUL, and goes on behind a word
          have next : ∀ {pass' : SecondPass} {cur' : List UInt8}, cur' <:+ rest →
              pass'.string.length = text.length + 1 → Checked append (tokens cur') →
              Stored text pass' (secondLoop append text fuel pass' (skipSpace cur')) (tokens cur') := by
            intro pass' cur' inside length' checked'
            rw [← tokens_skipSpace cur'] at checked' ⊢
            have shorter := (skipSpace_suffix cur').trans inside
            exact ih (skipSpace_atToken cur') (shorter.trans behind)
              (Nat.le_trans shorter.length_le enough') length' checked'
          rw [secondLoop, secondTurn]
          by_cases amp : c = ampersand
          · rw [amp, tokens_ampersand] at checked
            exact absurd List.mem_cons_self checked.noBackground
          by_cases lt : c = less
          · rw [lt, tokens_less] at checked ⊢
            have named := checked.fileName (by rfl)
            rw [named] at checked ⊢
            have inside := (skipWord_suffix (skipSpace rest)).trans (skipSpace_suffix rest)
            have cut := cut_name ((skipSpace_suffix rest).trans behind) length
            rw [if_pos rfl]
            apply Stored.input checked.inputFile_tail cut.1 cut.2
            exact next inside (by rw [List.length_set, length]) checked.tail.tail
          rw [if_neg lt]
          by_cases gt : c = greater
          · rw [gt] at checked ⊢
            rw [if_pos rfl]
            by_cases second : rest.head? = some greater
            · rw [tokens_greater, if_pos second] at checked ⊢
              rw [if_pos (checked.appends List.mem_cons_self)]
              have named := checked.fileName (by rfl)
              rw [named] at checked ⊢
              have name := (skipSpace_suffix rest.tail).trans (List.tail_suffix rest)
              have cut := cut_name (name.trans behind) length
              apply Stored.output rfl (checked.outputFile_tail rfl) cut.1 cut.2
              exact next ((skipWord_suffix _).trans name) (by rw [List.length_set, length])
                checked.tail.tail
            · rw [tokens_greater, if_neg second] at checked ⊢
              have single : ¬ append = true := by
                rw [checked.truncates List.mem_cons_self]
                exact Bool.false_ne_true
              rw [if_neg single]
              have named := checked.fileName (by rfl)
              rw [named] at checked ⊢
              have name := skipSpace_suffix rest
              have cut := cut_name (name.trans behind) length
              apply Stored.output rfl (checked.outputFile_tail rfl) cut.1 cut.2
              exact next ((skipWord_suffix _).trans name) (by rw [List.length_set, length])
                checked.tail.tail
          rw [if_neg gt]
          by_cases pipe : c = bar
          · rw [pipe, tokens_bar] at checked ⊢
            rw [if_pos rfl]
            apply Stored.pipe
            exact next (List.suffix_refl rest) length checked.tail
          rw [if_neg pipe]
          have wordByte := isWordByte_of notSpace amp lt gt pipe
          have cut := cut_name suffix length
          rw [List.takeWhile_cons_of_pos wordByte] at cut
          rw [tokens_word wordByte] at checked ⊢
          have same : skipWord (c :: rest) = skipWord rest := by rw [skipWord, if_pos wordByte]
          rw [same] at cut ⊢
          apply Stored.word cut.1 cut.2
          exact next (skipWord_suffix rest) (by rw [List.length_set, length]) checked.tail

/-- The pointers read from the heads, up to the next NULL each, are the argument lists. -/
theorem untilNull_heads {Match : Nat → List UInt8 → Prop} (followed : Followed ts)
    (noBackground : .background ∉ ts) (before pointers : List (Option Nat))
    (points : List.Forall₂ (Option.Rel Match) pointers (slots ts)) :
    List.Forall₂ (fun start words => ∃ found,
        ParsedCommand.untilNull ((before ++ pointers ++ [none]).drop start) = some found ∧
          List.Forall₂ Match found words)
      (before.length :: heads before.length ts) (argLists ts) := by
  fun_induction slots ts generalizing before pointers with
  | case1 =>
      cases points
      refine .cons ⟨[], ?_, .nil⟩ .nil
      simp [ParsedCommand.untilNull]
  | case2 bytes rest ih =>
      obtain ⟨pointer, pointers', here, later, rfl⟩ := List.forall₂_cons_right_iff.mp points
      have both := ih followed.2 (by simp_all) (before ++ [pointer]) pointers' later
      rw [List.length_append, List.length_singleton] at both
      have some_ := argLists_ne_nil rest
      rw [argLists_word]
      cases lists : argLists rest with
      | nil => exact absurd lists some_
      | cons first others =>
          rw [lists] at both
          cases both with
          | cons head tails =>
              cases pointer with
              | none => cases here
              | some p =>
                  cases here with
                  | some points_ =>
                      obtain ⟨found, read, matches_⟩ := head
                      rw [List.append_assoc before, List.singleton_append] at read tails
                      refine .cons ⟨p :: found, ?_, .cons points_ matches_⟩ tails
                      rw [List.append_assoc before, List.drop_length_add_append] at read
                      have later : ParsedCommand.untilNull (pointers' ++ [none]) = some found := read
                      rw [List.append_assoc before, List.drop_left, List.cons_append,
                        ParsedCommand.untilNull, later]
                      rfl
  | case3 rest ih =>
      obtain ⟨pointer, pointers', here, later, rfl⟩ := List.forall₂_cons_right_iff.mp points
      cases here
      have both := ih followed.2 (by simp_all) (before ++ [none]) pointers' later
      rw [List.length_append, List.length_singleton] at both
      rw [argLists_pipe]
      rw [List.append_assoc before, List.singleton_append] at both
      refine .cons ⟨[], ?_, .nil⟩ both
      rw [List.append_assoc before, List.drop_left]
      rfl
  | case4 bytes rest ih =>
      rw [argLists_redirection rfl]
      exact ih followed.2.2 (by simp_all) before pointers points
  | case5 bytes rest ih =>
      rw [argLists_redirection rfl]
      exact ih followed.2.2 (by simp_all) before pointers points
  | case6 bytes rest ih =>
      rw [argLists_redirection rfl]
      exact ih followed.2.2 (by simp_all) before pointers points
  | case7 t rest notWord notPipe noInput noOutput noAppend ih =>
      -- a redirection has its file name behind it
      have named : t.isRedirection = true → ∃ bytes rest', rest = .word bytes :: rest' :=
        fun redirects => followed.exists_word redirects
      cases t with
      | word bytes => exact (notWord bytes rfl).elim
      | pipe => exact (notPipe rfl).elim
      | background => exact absurd List.mem_cons_self noBackground
      | input =>
          obtain ⟨bytes, rest', split⟩ := named rfl
          exact (noInput bytes rest' rfl split).elim
      | output =>
          obtain ⟨bytes, rest', split⟩ := named rfl
          exact (noOutput bytes rest' rfl split).elim
      | append =>
          obtain ⟨bytes, rest', split⟩ := named rfl
          exact (noAppend bytes rest' rfl split).elim

end PennOs.Util
