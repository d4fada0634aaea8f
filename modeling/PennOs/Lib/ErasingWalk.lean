import Mathlib.Data.Finset.Card

set_option autoImplicit false

/- A walk along a partial successor map that erases every link it has followed. The trail that is
gone is what stops it on a cycle. -/
namespace ErasingWalk

variable {α : Type} {next : α → Option α} {start : Option α} {a b c : α}

/-- The nodes the links lead to. -/
inductive Reaches (next : α → Option α) (start : Option α) : α → Prop where
  | first {a : α} : start = some a → Reaches next start a
  | link {a b : α} : Reaches next start a → next a = some b → Reaches next start b

theorem not_reaches_none : ¬ Reaches next none a := by
  intro reached
  induction reached with
  | first same => cases same
  | link _ _ ih => exact ih

variable [DecidableEq α]

/-- The map without the link that leaves `a`. -/
def erase (next : α → Option α) (a : α) : α → Option α := Function.update next a none

theorem erase_self (next : α → Option α) (a : α) : erase next a a = none := by
  rw [erase, Function.update_self]

theorem erase_of_ne (next : α → Option α) (apart : b ≠ a) : erase next a b = next b := by
  rw [erase, Function.update_of_ne apart]

theorem erase_some (linked : erase next a b = some c) : b ≠ a ∧ next b = some c := by
  by_cases same : b = a
  · rw [same, erase_self] at linked
    cases linked
  · rw [erase_of_ne next same] at linked
    exact ⟨same, linked⟩

/-- What was reached through a node is reached from behind it, without its link. -/
theorem reaches_erase : Reaches next (some a) b ↔ b = a ∨ Reaches (erase next a) (next a) b := by
  constructor
  · intro reached
    induction reached with
    | first same => exact .inl (Option.some.inj same).symm
    | @link b c _ linked ih =>
        by_cases same : b = a
        · rw [same] at linked
          exact .inr (.first linked)
        · apply Or.inr
          apply Reaches.link (ih.resolve_left same)
          rw [erase_of_ne next same]
          exact linked
  · intro either
    rcases either with same | reached
    · exact .first (congrArg some same.symm)
    · induction reached with
      | first same => exact .link (.first rfl) same
      | link _ linked ih => exact .link ih (erase_some linked).2

/-- A walk that goes on has one link less to follow. -/
theorem erase_card {links : Finset α} (inside : ∀ b, Reaches next (some a) b → next b ≠ none → b ∈ links)
    (linked : next a ≠ none) :
    (links.erase a).card + 1 = links.card ∧
      ∀ b, Reaches (erase next a) (next a) b → erase next a b ≠ none → b ∈ links.erase a := by
  have here : a ∈ links := inside a (.first rfl) linked
  constructor
  · exact Finset.card_erase_add_one here
  · intro b reached more
    obtain ⟨c, further⟩ := Option.ne_none_iff_exists'.mp more
    obtain ⟨apart, further⟩ := erase_some further
    apply Finset.mem_erase_of_ne_of_mem apart
    apply inside b (reaches_erase.mpr (.inr reached))
    rw [further]
    exact Option.some_ne_none c

end ErasingWalk
