import Mathlib.Data.List.Nodup

set_option autoImplicit false

/- A first-in first-out queue of distinct members that may also leave by a key. -/
namespace Fifo

inductive Op (α κ : Type) where
  | push (x : α)
  | pop
  | popBy (key : κ)
  | contains (x : α)

inductive Answer (α : Type) where
  | done
  | taken (x : Option α)
  | found (present : Bool)
  deriving DecidableEq

variable {α κ : Type} {hasKey : κ → α → Bool} {members : List α} {op : Op α κ} {x : α}

/-- The first member with the key leaves, and it alone. -/
theorem find_eraseP {p : α → Bool} (distinct : members.Nodup) (found : members.find? p = some x) :
    x ∈ members ∧ x ∉ members.eraseP p := by
  induction members with
  | nil => cases found
  | cons first rest ih =>
      obtain ⟨fresh, distinct'⟩ := List.nodup_cons.mp distinct
      by_cases here : p first = true
      · rw [List.find?_cons_of_pos here] at found
        obtain rfl := Option.some.inj found
        rw [List.eraseP_cons_of_pos here]
        exact ⟨List.mem_cons_self, fresh⟩
      · rw [List.find?_cons_of_neg here] at found
        rw [List.eraseP_cons_of_neg here]
        obtain ⟨member, gone⟩ := ih distinct' found
        have apart : x ≠ first := fun same => fresh (same ▸ member)
        exact ⟨List.mem_cons_of_mem _ member, by simp [apart, gone]⟩

variable [DecidableEq α]

section Definitions

variable (hasKey)

/-- One operation on the members, first in first. -/
def step : Op α κ → List α → Answer α × List α
  | .push x, members => (.done, if x ∈ members then members else members ++ [x])
  | .pop, members => (.taken members.head?, members.tail)
  | .popBy key, members => (.taken (members.find? (hasKey key)), members.eraseP (hasKey key))
  | .contains x, members => (.found (decide (x ∈ members)), members)

/-- The answers of several operations, and the members after them. -/
def run : List (Op α κ) → List α → List (Answer α) × List α
  | [], members => ([], members)
  | op :: rest, members =>
      let (answer, members) := step hasKey op members
      let (answers, members) := run rest members
      (answer :: answers, members)

end Definitions

theorem step_taken (distinct : members.Nodup) (taken : (step hasKey op members).1 = .taken (some x)) :
    x ∈ members ∧ x ∉ (step hasKey op members).2 := by
  cases op with
  | push y => cases taken
  | pop =>
      cases members with
      | nil => cases taken
      | cons first rest =>
          obtain rfl : first = x := by simpa [step] using taken
          exact ⟨List.mem_cons_self, (List.nodup_cons.mp distinct).1⟩
  | popBy key => exact find_eraseP distinct (Answer.taken.inj taken)
  | contains y => cases taken

/-- An operation that takes nothing out leaves the members alone, unless it pushes. -/
theorem step_none (taken : (step hasKey op members).1 = .taken none) :
    (step hasKey op members).2 = members := by
  cases op with
  | push y => cases taken
  | pop =>
      cases members with
      | nil => rfl
      | cons first rest => cases taken
  | popBy key =>
      have missing := List.find?_eq_none.mp (Answer.taken.inj taken)
      exact List.eraseP_of_forall_not missing
  | contains y => cases taken

end Fifo
