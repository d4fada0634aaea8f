import Mathlib.Tactic.MkIffOfInductiveProp
import PennOs.Util.FirstPass

set_option autoImplicit false

/- The lines that the parser accepts. -/
namespace PennOs.Util

open PennOs.Shell (isSpace)

variable {ts : List Token} {bytes : List UInt8} {word input output piped : Bool}
  {pass pass' : FirstPass}

/-- The argument lists of the segments. -/
def argLists (ts : List Token) : List (List (List UInt8)) := (segments ts).map args

theorem segments_ne_nil (ts : List Token) : segments ts ≠ [] := List.splitOn_ne_nil Token.pipe ts

theorem argLists_ne_nil (ts : List Token) : argLists ts ≠ [] := by
  rw [argLists, ne_eq, List.map_eq_nil_iff]
  exact segments_ne_nil ts

theorem argLists_nil : argLists [] = [[]] := rfl

theorem segments_pipe : segments (.pipe :: ts) = [] :: segments ts := by
  rw [segments, List.splitOn_cons_eq_if_modifyHead]
  rfl

theorem segments_other {t : Token} (other : t ≠ .pipe) :
    segments (t :: ts) = (segments ts).modifyHead (t :: ·) := by
  rw [segments, List.splitOn_cons_eq_if_modifyHead, if_neg (by simpa using other)]
  rfl

theorem argLists_pipe : argLists (.pipe :: ts) = [] :: argLists ts := by
  rw [argLists, segments_pipe]
  rfl

theorem argLists_word : argLists (.word bytes :: ts) = (argLists ts).modifyHead (bytes :: ·) := by
  rw [argLists, argLists, segments_other (by simp)]
  cases segments ts <;> rfl

theorem argLists_redirection {t : Token} (redirects : t.isRedirection = true) :
    argLists (t :: .word bytes :: ts) = argLists ts := by
  have other : t ≠ .pipe := by
    intro same
    rw [same] at redirects
    cases redirects
  rw [argLists, argLists, segments_other other, segments_other (by simp)]
  cases segments ts with
  | nil => rfl
  | cons first others =>
      cases t with
      | input => rfl
      | output => rfl
      | append => rfl
      | _ => cases redirects

/-- Every segment has an argument, the first one perhaps before the tokens at hand. -/
def Filled (word : Bool) : List (List (List UInt8)) → Prop
  | [] => False
  | first :: others => (word = true ∨ first ≠ []) ∧ ∀ words ∈ others, words ≠ []

theorem filled_modifyHead {lists : List (List (List UInt8))} (some_ : lists ≠ []) :
    Filled word (lists.modifyHead (bytes :: ·)) ↔ Filled true lists := by
  cases lists with
  | nil => contradiction
  | cons first others => simp [Filled]

theorem filled_nil_cons {lists : List (List (List UInt8))} (some_ : lists ≠ []) :
    Filled word ([] :: lists) ↔ word = true ∧ Filled false lists := by
  cases lists with
  | nil => contradiction
  | cons first others => simp [Filled]

theorem filled_iff (ts : List Token) :
    Filled false (argLists ts) ↔ ∀ segment ∈ segments ts, args segment ≠ [] := by
  have some_ := segments_ne_nil ts
  rw [argLists]
  cases parts : segments ts with
  | nil => exact absurd parts some_
  | cons first others => simp [Filled]

/-- The grammar for what is left of a line, behind what has been seen of it. -/
@[mk_iff]
structure AcceptedFrom (word input output piped : Bool) (ts : List Token) : Prop where
  noBackground : .background ∉ ts
  followed : Followed ts
  inputOnce : input.toNat + ts.count .input ≤ 1
  noInput : piped = true → .input ∉ ts
  inputFirst : ts.Pairwise fun a b => ¬ (a = .pipe ∧ b = .input)
  outputOnce : output.toNat + ts.countP Token.isOutput ≤ 1
  noPipe : output = true → .pipe ∉ ts
  outputLast : ts.Pairwise fun a b => ¬ (a.isOutput = true ∧ b = .pipe)
  filled : Filled word (argLists ts)

theorem acceptedFrom_start : AcceptedFrom false false false false ts ↔ Accepted ts := by
  constructor
  · intro from_
    exact ⟨from_.noBackground, from_.followed, by simpa using from_.inputOnce, from_.inputFirst,
      by simpa using from_.outputOnce, from_.outputLast, (filled_iff ts).mp from_.filled⟩
  · intro accepted
    exact ⟨accepted.noBackground, accepted.followed, by simpa using accepted.inputOnce, nofun,
      accepted.inputFirst, by simpa using accepted.outputOnce, nofun, accepted.outputLast,
      (filled_iff ts).mpr accepted.filled⟩

theorem acceptedFrom_nil : AcceptedFrom word input output piped [] ↔ word = true := by
  have ins := Bool.toNat_le input
  have outs := Bool.toNat_le output
  simp [acceptedFrom_iff, Followed, argLists_nil, Filled, ins, outs]

theorem acceptedFrom_word : AcceptedFrom word input output piped (.word bytes :: ts) ↔
    AcceptedFrom true input output piped ts := by
  simp [acceptedFrom_iff, Followed, argLists_word, filled_modifyHead (argLists_ne_nil ts)]

theorem acceptedFrom_pipe : AcceptedFrom word input output piped (.pipe :: ts) ↔
    output = false ∧ word = true ∧ AcceptedFrom false input output true ts := by
  simp [acceptedFrom_iff, Followed, argLists_pipe, filled_nil_cons (argLists_ne_nil ts)]
  grind

theorem acceptedFrom_input :
    AcceptedFrom word input output piped (.input :: .word bytes :: ts) ↔
      piped = false ∧ input = false ∧ AcceptedFrom word true output piped ts := by
  simp [acceptedFrom_iff, Followed, argLists_redirection]
  grind

theorem acceptedFrom_output {t : Token} (outputs : t.isOutput = true) :
    AcceptedFrom word input output piped (t :: .word bytes :: ts) ↔
      output = false ∧ AcceptedFrom word input true piped ts := by
  cases t with
  | output =>
      simp [acceptedFrom_iff, Followed, argLists_redirection]
      grind [List.countP_eq_zero]
  | append =>
      simp [acceptedFrom_iff, Followed, argLists_redirection]
      grind [List.countP_eq_zero]
  | _ => cases outputs

theorem Followed.exists_word {t : Token} (followed : Followed (t :: ts))
    (redirects : t.isRedirection = true) : ∃ bytes rest, ts = .word bytes :: rest := by
  have named := followed.1 redirects
  cases ts with
  | nil => cases named
  | cons next rest =>
      cases next with
      | word bytes => exact ⟨bytes, rest, rfl⟩
      | _ => cases named

/-- A redirection without a file name. -/
theorem not_acceptedFrom {t : Token} (redirects : t.isRedirection = true)
    (noName : ∀ bytes rest, ts = .word bytes :: rest → False) :
    ¬ AcceptedFrom word input output piped (t :: ts) := by
  intro accepted
  obtain ⟨bytes, rest, split⟩ := accepted.followed.exists_word redirects
  exact noName bytes rest split

theorem error_iff {e : ParserError} (refused : ¬ AcceptedFrom word input output piped ts) :
    (∃ pass' : FirstPass, Except.error e = .ok pass' ∧ pass'.hasTokenLast = true) ↔
      AcceptedFrom word input output piped ts := by
  simp [refused]

/-- The token pass comes to its end with a word in its last segment exactly on the grammar. -/
theorem checkTokens_accepts (pass : FirstPass) (ts : List Token) :
    (∃ pass', checkTokens pass ts = .ok pass' ∧ pass'.hasTokenLast = true) ↔
      AcceptedFrom pass.hasTokenLast pass.hasFileInput pass.hasFileOutput
        (decide (0 < pass.numCommands)) ts := by
  fun_induction checkTokens pass ts with
  | case1 pass => simp [acceptedFrom_nil]
  | case2 pass rest => exact error_iff fun accepted => accepted.noBackground List.mem_cons_self
  | case3 pass bytes rest ih => rw [ih, acceptedFrom_word]
  | case4 pass rest seen => simp [acceptedFrom_pipe, seen]
  | case5 pass rest unseen noToken => simp [acceptedFrom_pipe, noToken]
  | case6 pass rest unseen token ih =>
      rw [ih, acceptedFrom_pipe]
      simp [unseen, token]
  | case7 pass bytes rest seen =>
      apply error_iff
      rw [acceptedFrom_input]
      rintro ⟨single, fresh, -⟩
      rcases seen with seen | seen
      · simp [seen] at single
      · simp [seen] at fresh
  | case8 pass bytes rest unseen ih =>
      obtain ⟨single, fresh⟩ := not_or.mp unseen
      rw [ih, acceptedFrom_input]
      simp [single, fresh]
  | case9 pass rest noName seen => exact error_iff (not_acceptedFrom rfl noName)
  | case10 pass rest noName unseen => exact error_iff (not_acceptedFrom rfl noName)
  | case11 pass bytes rest seen => simp [acceptedFrom_output, seen]
  | case12 pass bytes rest unseen ih =>
      rw [ih, acceptedFrom_output rfl]
      simp [unseen]
  | case13 pass rest noName seen => exact error_iff (not_acceptedFrom rfl noName)
  | case14 pass rest noName unseen => exact error_iff (not_acceptedFrom rfl noName)
  | case15 pass bytes rest seen => simp [acceptedFrom_output, seen]
  | case16 pass bytes rest unseen ih =>
      rw [ih, acceptedFrom_output rfl]
      simp [unseen]
  | case17 pass rest noName seen => exact error_iff (not_acceptedFrom rfl noName)
  | case18 pass rest noName unseen => exact error_iff (not_acceptedFrom rfl noName)

/-- What the token pass has counted and seen at its end. -/
theorem checkTokens_counts {pass pass' : FirstPass} {ts : List Token}
    (run : checkTokens pass ts = .ok pass') :
    pass'.numCommands = pass.numCommands + ts.count .pipe ∧
    pass'.totalStrings = pass.totalStrings + (args ts).length ∧
    pass'.isFileAppend = (pass.isFileAppend || decide (.append ∈ ts)) ∧
    pass'.hasFileInput = (pass.hasFileInput || decide (.input ∈ ts)) ∧
    pass'.hasFileOutput = (pass.hasFileOutput || ts.any Token.isOutput) ∧
    (pass'.hasTokenLast = true → pass.hasTokenLast = true ∨ args ts ≠ []) := by
  fun_induction checkTokens pass ts with
  | case1 pass =>
      obtain rfl := Except.ok.inj run
      simp [args]
  | case3 pass bytes rest ih =>
      simpa [args, Nat.add_assoc, Nat.add_comm 1] using ih run
  | case6 pass rest unseen token ih =>
      obtain ⟨commands, strings, appends, inputs, outputs, -⟩ := ih run
      have before : pass.hasTokenLast = true := by simpa using token
      refine ⟨?_, strings, by simpa using appends, by simpa using inputs, outputs, fun _ => .inl before⟩
      rw [commands, List.count_cons_self]
      show pass.numCommands + 1 + _ = _
      omega
  | case8 pass bytes rest unseen ih => simpa [args] using ih run
  | case12 pass bytes rest unseen ih => simpa [args] using ih run
  | case16 pass bytes rest unseen ih => simpa [args] using ih run
  | _ => cases run

end PennOs.Util
