import Mathlib.Logic.Basic

set_option autoImplicit false

/- First-match scans over an interval of indices. -/
namespace Search

/-- The first index with `test` among `count` indices from `index`. -/
def firstFrom (test : Nat → Bool) : Nat → Nat → Option Nat
  | 0, _ => none
  | count + 1, index => if test index then some index else firstFrom test count (index + 1)

variable {test other : Nat → Bool} {count index found : Nat}

theorem firstFrom_some (result : firstFrom test count index = some found) :
    index ≤ found ∧ found < index + count ∧ test found = true ∧
      ∀ i, index ≤ i → i < found → test i = false := by
  induction count generalizing index with
  | zero => simp [firstFrom] at result
  | succ count ih =>
      by_cases here : test index = true
      · simp only [firstFrom, here, ↓reduceIte, Option.some.injEq] at result
        subst result
        exact ⟨Nat.le_refl _, by omega, here, by omega⟩
      · simp only [firstFrom, here, Bool.false_eq_true, ↓reduceIte] at result
        obtain ⟨lower, upper, holds, before⟩ := ih result
        refine ⟨by omega, by omega, holds, ?_⟩
        intro i low high
        by_cases first : i = index
        · simpa [first] using here
        · exact before i (by omega) high

theorem firstFrom_none :
    firstFrom test count index = none ↔ ∀ i, index ≤ i → i < index + count → test i = false := by
  induction count generalizing index with
  | zero => simp only [firstFrom, true_iff]; omega
  | succ count ih =>
      by_cases here : test index = true
      · simp only [firstFrom, here, ↓reduceIte, reduceCtorEq, false_iff]
        intro all
        simp [all index (Nat.le_refl _) (by omega)] at here
      · simp only [firstFrom, here, Bool.false_eq_true, ↓reduceIte, ih]
        constructor
        · intro rest i low high
          by_cases first : i = index
          · simpa [first] using here
          · exact rest i (by omega) (by omega)
        · intro all i low high
          exact all i (by omega) (by omega)

theorem firstFrom_eq_some (low : index ≤ found) (high : found < index + count)
    (holds : test found = true) (before : ∀ i, index ≤ i → i < found → test i = false) :
    firstFrom test count index = some found := by
  cases result : firstFrom test count index with
  | none =>
      rw [firstFrom_none] at result
      simp [result found low high] at holds
  | some first =>
      obtain ⟨lower, upper, first_holds, none_before⟩ := firstFrom_some result
      rcases Nat.lt_trichotomy first found with less | equal | more
      · simp [before first lower less] at first_holds
      · rw [equal]
      · simp [none_before found low more] at holds

theorem firstFrom_congr (same : ∀ i, index ≤ i → i < index + count → test i = other i) :
    firstFrom test count index = firstFrom other count index := by
  induction count generalizing index with
  | zero => rfl
  | succ count ih =>
      simp only [firstFrom]
      rw [same index (Nat.le_refl _) (by omega),
        ih (fun i low high => same i (by omega) (by omega))]

end Search
