import Mathlib.Data.List.Nodup

set_option autoImplicit false

/- Lines in which members wait: they leave at any place and join at the end. -/
namespace WaitingLine

variable {α : Type} {line line' kept : List α} {a : α}

/-- Some members left the line, and others joined it at its end. -/
def Onward (line line' : List α) : Prop :=
  ∃ kept joined, line' = kept ++ joined ∧ kept.Sublist line ∧ ∀ a ∈ joined, a ∉ line

theorem Onward.of_sublist (shorter : line'.Sublist line) : Onward line line' :=
  ⟨line', [], (List.append_nil line').symm, shorter, fun _ member => absurd member List.not_mem_nil⟩

theorem Onward.refl (line : List α) : Onward line line :=
  .of_sublist (List.Sublist.refl line)

theorem Onward.join (fresh : a ∉ line) : Onward line (line ++ [a]) := by
  refine ⟨line, [a], rfl, List.Sublist.refl line, fun b member => ?_⟩
  rw [List.mem_singleton.mp member]
  exact fresh

variable [DecidableEq α]

/-- Where others leave, a member moves to the front. -/
theorem idxOf_sublist (shorter : kept.Sublist line) (distinct : line.Nodup) (stays : a ∈ kept) :
    kept.idxOf a ≤ line.idxOf a := by
  induction shorter with
  | slnil => exact Nat.le_refl _
  | cons first shorter ih =>
      have distinct' := List.nodup_cons.mp distinct
      have apart : first ≠ a := fun same => distinct'.1 (same ▸ shorter.subset stays)
      rw [List.idxOf_cons_ne _ apart]
      exact Nat.le_succ_of_le (ih distinct'.2 stays)
  | cons_cons first shorter ih =>
      by_cases here : first = a
      · rw [here, List.idxOf_cons_self]
        exact Nat.zero_le _
      · rw [List.idxOf_cons_ne _ here, List.idxOf_cons_ne _ here]
        have stays' := (List.mem_cons.mp stays).resolve_left (Ne.symm here)
        exact Nat.succ_le_succ (ih (List.nodup_cons.mp distinct).2 stays')

/-- Nobody gets ahead of a member that stays. -/
theorem Onward.idxOf_le (onward : Onward line line') (distinct : line.Nodup) (here : a ∈ line)
    (stays : a ∈ line') :
    line'.idxOf a ≤ line.idxOf a := by
  obtain ⟨kept, joined, rfl, shorter, fresh⟩ := onward
  have old : a ∈ kept := (List.mem_append.mp stays).resolve_right fun member => fresh a member here
  rw [List.idxOf_append_of_mem old]
  exact idxOf_sublist shorter distinct old

end WaitingLine
