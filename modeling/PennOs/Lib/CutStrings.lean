import Mathlib.Data.List.TakeWhile

set_option autoImplicit false

/- A copied text that is cut into strings in place, by terminators written behind its words. -/
namespace CutStrings

variable {α : Type} [DecidableEq α] {nul : α} {kept : α → Bool} {text memory word : List α}
  {start i : Nat}

/-- The string at `start`: up to the next terminator. -/
def stringAt (nul : α) (memory : List α) (start : Nat) : List α :=
  (memory.drop start).takeWhile fun a => decide (a ≠ nul)

/-- The copy has every `kept` member of the text in its place. -/
def Intact (kept : α → Bool) (text memory : List α) : Prop :=
  ∀ (i : Nat) (a : α), text[i]? = some a → kept a = true → memory[i]? = some a

/-- Only terminators have been written. -/
def Cuts (nul : α) (before after : List α) : Prop :=
  after.length = before.length ∧ ∀ i : Nat, before[i]? = some nul → after[i]? = some nul

/-- A word of the text at `start`, and its terminator in the copy. -/
structure WordAt (nul : α) (kept : α → Bool) (text memory : List α) (start : Nat) (word : List α) :
    Prop where
  begins : word <+: text.drop start
  all : ∀ a ∈ word, kept a = true
  ended : memory[start + word.length]? = some nul

omit [DecidableEq α] in
theorem Cuts.refl (memory : List α) : Cuts nul memory memory := ⟨rfl, fun _ here => here⟩

omit [DecidableEq α] in
theorem Cuts.trans {first second third : List α} (one : Cuts nul first second)
    (two : Cuts nul second third) : Cuts nul first third :=
  ⟨two.1.trans one.1, fun i here => two.2 i (one.2 i here)⟩

omit [DecidableEq α] in
theorem Cuts.set (memory : List α) (i : Nat) : Cuts nul memory (memory.set i nul) := by
  refine ⟨List.length_set, fun j here => ?_⟩
  have inside : j < memory.length := by
    rw [List.getElem?_eq_some_iff] at here
    exact here.1
  by_cases same : i = j
  · subst same
    exact List.getElem?_set_self inside
  · rw [List.getElem?_set_ne same]
    exact here

omit [DecidableEq α] in
/-- A terminator written where the text has no kept member leaves the copy intact. -/
theorem Intact.set (intact : Intact kept text memory)
    (outside : ∀ a, text[i]? = some a → kept a = false) : Intact kept text (memory.set i nul) := by
  intro j a here keeps
  by_cases same : i = j
  · subst same
    rw [outside a here] at keeps
    cases keeps
  · rw [List.getElem?_set_ne same]
    exact intact j a here keeps

omit [DecidableEq α] in
theorem WordAt.cut {memory' : List α} (at_ : WordAt nul kept text memory start word)
    (cuts : Cuts nul memory memory') : WordAt nul kept text memory' start word :=
  ⟨at_.begins, at_.all, cuts.2 _ at_.ended⟩

theorem takeWhile_ended {word rest : List α} (absent : nul ∉ word) :
    ((word ++ nul :: rest).takeWhile fun a => decide (a ≠ nul)) = word := by
  have none_stops : ∀ a ∈ word, decide (a ≠ nul) = true := by
    intro a member
    apply decide_eq_true
    exact fun same => absent (same ▸ member)
  rw [List.takeWhile_append_of_pos none_stops]
  simp

/-- The string read at a word's start is that word. -/
theorem WordAt.reads (at_ : WordAt nul kept text memory start word)
    (intact : Intact kept text memory) (absent : nul ∉ word) : stringAt nul memory start = word := by
  have ended := at_.ended
  obtain ⟨rest, split⟩ := at_.begins
  have inside : start + word.length < memory.length := by
    rw [List.getElem?_eq_some_iff] at ended
    exact ended.1
  have copied : (memory.drop start).take word.length = word := by
    apply List.ext_getElem?
    intro j
    by_cases low : j < word.length
    · have source : text[start + j]? = some word[j] := by
        rw [← List.getElem?_drop, ← split, List.getElem?_append_left low]
        exact List.getElem?_eq_getElem low
      rw [List.getElem?_take_of_lt low, List.getElem?_drop,
        intact _ _ source (at_.all _ (List.getElem_mem low)), List.getElem?_eq_getElem low]
    · rw [List.getElem?_eq_none (by rw [List.length_take]; omega), List.getElem?_eq_none (by omega)]
  have behind : (memory.drop start).drop word.length =
      nul :: (memory.drop start).drop (word.length + 1) := by
    rw [List.drop_drop, List.drop_drop, List.drop_eq_getElem_cons inside]
    rw [List.getElem?_eq_getElem inside] at ended
    rw [Option.some.inj ended, Nat.add_assoc]
  rw [stringAt, ← List.take_append_drop word.length (memory.drop start), copied, behind,
    takeWhile_ended absent]

omit [DecidableEq α] in
/-- A word that is ended in an intact copy is all that is kept from its start on. -/
theorem WordAt.maximal (at_ : WordAt nul kept text memory start word)
    (intact : Intact kept text memory) (absent : nul ∉ text) :
    (text.drop start).takeWhile kept = word := by
  obtain ⟨rest, split⟩ := at_.begins
  rw [← split, List.takeWhile_append_of_pos at_.all]
  cases behind : rest with
  | nil => rw [List.takeWhile_nil, List.append_nil]
  | cons a later =>
      have here : text[start + word.length]? = some a := by
        rw [← List.getElem?_drop, ← split, behind, List.getElem?_append_right (Nat.le_refl _),
          Nat.sub_self]
        rfl
      have stops : kept a = false := by
        by_contra keeps
        have copied := intact _ a here (by simpa using keeps)
        rw [at_.ended] at copied
        cases copied
        exact absent (List.mem_of_getElem? here)
      rw [List.takeWhile_cons_of_neg (by rw [stops]; exact Bool.false_ne_true), List.append_nil]

end CutStrings
