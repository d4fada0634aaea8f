import Mathlib.Data.List.Perm.Basic
import PennOs.Util.VecContents

set_option autoImplicit false

/- What a vector with an element destructor destroys. -/
namespace PennOs.Util

open DynArray (Answer pointerSize)
open scoped List

variable {α : Type} {v v' : Vec α} {xs ys : List (Option α)} {call : VecCall α} {calls : List (VecCall α)}
  {of : List (Option α) → VecCall α → List (Option α)}

/-- What the calls say in turn of the lists that they are made on. -/
def collect (of : List (Option α) → VecCall α → List (Option α)) (xs : List (Option α)) :
    List (VecCall α) → List (Option α)
  | [] => []
  | call :: rest => of xs call ++ collect of (call.onList xs) rest

/-- The elements that are stored. -/
def storedBy (calls : List (VecCall α)) : List (Option α) := collect VecCall.stores [] calls

/-- The elements that are removed or overwritten, in turn. -/
def removedBy (calls : List (VecCall α)) : List (Option α) := collect VecCall.removes [] calls

/-- `vec_pop_back` is called where there are elements. -/
def PopsElement (xs : List (Option α)) : List (VecCall α) → Prop
  | [] => False
  | call :: rest => call = .popBack ∧ xs ≠ [] ∨ PopsElement (call.onList xs) rest

/-- The element that `vec_pop_back` removes. -/
def VecCall.pops (xs : List (Option α)) : VecCall α → List (Option α)
  | .popBack => xs.getLast?.toList
  | _ => []

section Collected

theorem collect_concat :
    collect of xs (calls ++ [call]) =
      collect of xs calls ++ of (calls.foldl (fun xs call => call.onList xs) xs) call := by
  induction calls generalizing xs with
  | nil => simp only [List.nil_append, collect, List.append_nil, List.foldl_nil]
  | cons first rest ih => simp only [List.cons_append, collect, ih, List.foldl_cons, List.append_assoc]

theorem VecCall.removes_eq (xs : List (Option α)) (call : VecCall α) :
    call.removes xs = call.destroys xs ++ call.pops xs := by
  cases call with
  | popBack => rfl
  | _ => exact (List.append_nil _).symm

/-- Only what is popped is not destroyed. -/
theorem length_removed (xs : List (Option α)) (calls : List (VecCall α)) :
    (collect VecCall.removes xs calls).length =
    (collect VecCall.destroys xs calls).length + (collect VecCall.pops xs calls).length := by
  induction calls generalizing xs with
  | nil => rfl
  | cons call rest ih =>
      simp only [collect, List.length_append, ih, VecCall.removes_eq]
      omega

theorem pops_eq_nil_iff : call.pops xs = [] ↔ ¬ (call = .popBack ∧ xs ≠ []) := by
  cases call with
  | popBack =>
      cases last : xs.getLast? with
      | none => simp [VecCall.pops, List.getLast?_eq_none_iff.mp last]
      | some a =>
          have some_ : xs ≠ [] := by
            rintro rfl
            cases last
          simp [VecCall.pops, last, some_]
  | _ => simp [VecCall.pops]

theorem popped_eq_nil_iff : collect VecCall.pops xs calls = [] ↔ ¬ PopsElement xs calls := by
  induction calls generalizing xs with
  | nil => simp [collect, PopsElement]
  | cons call rest ih =>
      simp only [collect, List.append_eq_nil_iff, pops_eq_nil_iff, ih, PopsElement, not_or]

theorem destroyed_eq_removed_iff :
    collect VecCall.destroys xs calls = collect VecCall.removes xs calls ↔ ¬ PopsElement xs calls := by
  rw [← popped_eq_nil_iff]
  constructor
  · intro same
    have lengths := length_removed xs calls
    rw [← same] at lengths
    apply List.eq_nil_of_length_eq_zero
    omega
  · intro none_
    induction calls generalizing xs with
    | nil => rfl
    | cons call rest ih =>
        obtain ⟨here, later⟩ := List.append_eq_nil_iff.mp none_
        have both := VecCall.removes_eq xs call
        rw [here, List.append_nil] at both
        simp only [collect, both, ih later]

end Collected

/- What is stored is in the list until it is removed. -/
section Conservation

theorem VecCall.stores_perm (inRange : call.InRange xs) :
    (call.stores xs ++ xs).Perm (call.removes xs ++ call.onList xs) := by
  have replaced : ∀ {index : Nat} {newEle : Option α}, index < xs.length →
      ([newEle] ++ xs).Perm (xs[index]?.toList ++ xs.set index newEle) := by
    intro index newEle inside
    rw [getElem?_toList inside]
    have taken := List.getElem_cons_eraseIdx_perm inside
    have given := List.set_perm_cons_eraseIdx inside newEle
    exact ((taken.symm.cons newEle).trans (.swap _ _ _)).trans (given.symm.cons _)
  cases call with
  | pushBack newEle => exact List.perm_append_comm
  | popBack =>
      show xs.Perm (xs.getLast?.toList ++ xs.dropLast)
      cases last : xs.getLast? with
      | none =>
          rw [List.getLast?_eq_none_iff.mp last]
          exact .refl _
      | some a =>
          have whole := List.dropLast_append_getLast? a last
          exact (List.Perm.of_eq whole.symm).trans List.perm_append_comm
  | insert index newEle => exact (List.perm_insertIdx newEle xs inRange).symm
  | erase index =>
      show xs.Perm (xs[index]?.toList ++ xs.eraseIdx index)
      rw [getElem?_toList inRange]
      exact (List.getElem_cons_eraseIdx_perm inRange).symm
  | set index newEle => exact replaced inRange
  | setForce index newEle =>
      show (List.replicate (index - xs.length) none ++ [newEle] ++ xs).Perm
        (xs[index]?.toList ++ if index < xs.length then _ else _)
      by_cases inside : index < xs.length
      · rw [if_pos inside, Nat.sub_eq_zero_of_le (Nat.le_of_lt inside)]
        exact replaced inside
      · rw [if_neg inside, List.getElem?_eq_none (Nat.le_of_not_lt inside), List.append_assoc xs]
        exact List.perm_append_comm
  | resize newCapacity => exact .refl _
  | resizeAndClean newCapacity => exact .refl _
  | clear => exact .of_eq (List.append_nil xs).symm
  | destroy => exact .of_eq (List.append_nil xs).symm

theorem VecRun.stored_perm (run : VecRun v calls) :
    (storedBy calls).Perm (removedBy calls ++ VecCall.listAfter calls) := by
  induction run with
  | new answer initialCapacity eleDtorFn small made => exact .refl _
  | @call answer call v v' calls before inRange small ran ih =>
      have step := VecCall.stores_perm inRange
      rw [storedBy, removedBy, collect_concat, collect_concat, listAfter_concat]
      calc storedBy calls ++ call.stores (VecCall.listAfter calls)
        _ ~ removedBy calls ++ VecCall.listAfter calls ++ call.stores (VecCall.listAfter calls) :=
          ih.append_right _
        _ ~ removedBy calls ++ (call.stores (VecCall.listAfter calls) ++ VecCall.listAfter calls) := by
          rw [List.append_assoc]
          exact List.perm_append_comm.append_left _
        _ ~ removedBy calls ++ (call.removes (VecCall.listAfter calls) ++
            call.onList (VecCall.listAfter calls)) := step.append_left _
        _ = removedBy calls ++ call.removes (VecCall.listAfter calls) ++
            call.onList (VecCall.listAfter calls) := (List.append_assoc _ _ _).symm

end Conservation

section Runs

/-- The destructor is called with what the calls destroy. -/
theorem VecRun.destroyed (run : VecRun v calls) (dtor : v.hasDtor = true) :
    v.destroyed = collect VecCall.destroys [] calls := by
  induction run with
  | new answer initialCapacity eleDtorFn small made => exact (new_represents small made).2.2
  | call answer call before inRange small ran ih =>
      have becomes := VecCall.run_becomes before.represents inRange small ran
      have dtor' := becomes.hasDtor.symm.trans dtor
      have grown := becomes.destroyed
      rw [if_pos dtor', ih dtor'] at grown
      rw [grown, collect_concat]
      rfl

/-- A vector with a destructor has destroyed, in turn, what its calls removed or overwrote, and so up to
`vec_destroy` each stored element once, unless `vec_pop_back` removed an element. -/
theorem vec_destroys_once_iff (run : VecRun v calls) (dtor : v.hasDtor = true) :
    (v.destroyed = removedBy calls ↔ ¬ PopsElement [] calls) ∧
      (calls.getLast? = some .destroy →
        (v.destroyed.Perm (storedBy calls) ↔ ¬ PopsElement [] calls)) := by
  have destroyed := run.destroyed dtor
  have removed : v.destroyed = removedBy calls ↔ ¬ PopsElement [] calls := by
    rw [destroyed]
    exact destroyed_eq_removed_iff
  refine ⟨removed, fun last => ?_⟩
  have stored := run.stored_perm
  have whole := List.dropLast_append_getLast? _ last
  rw [← whole, listAfter_concat, whole] at stored
  have all : (storedBy calls).Perm (removedBy calls) := by
    rw [← List.append_nil (removedBy calls)]
    exact stored
  constructor
  · intro perm
    have lengths := length_removed [] calls
    have same := (perm.trans all).length_eq
    rw [destroyed] at same
    apply popped_eq_nil_iff.mp
    apply List.eq_nil_of_length_eq_zero
    unfold removedBy at same
    omega
  · intro none_
    rw [removed.mpr none_]
    exact all.symm

theorem vec_destroys_once_iff_set : ∃ v : Vec Nat, v.destroyed = [some 0, some 1] ∧
    v.destroyed.Perm (storedBy [.pushBack (some 0), .set 0 (some 1), .destroy]) := by
  have empty : VecRun (⟨[], 0, 0, true, []⟩ : Vec Nat) [] :=
    .new none 0 true (by decide) rfl
  have pushed : VecRun (⟨[some 0], 1, 1, true, []⟩ : Vec Nat) ([] ++ [.pushBack (some 0)]) :=
    .call (some fun _ => none) _ empty trivial (by show _ < _; decide) rfl
  have replaced : VecRun (⟨[some 1], 1, 1, true, [some 0]⟩ : Vec Nat)
      ([.pushBack (some 0)] ++ [.set 0 (some 1)]) :=
    .call none _ pushed Nat.one_pos trivial rfl
  have destroyed : VecRun (⟨[], 0, 0, true, [some 0, some 1]⟩ : Vec Nat)
      ([.pushBack (some 0), .set 0 (some 1)] ++ [.destroy]) :=
    .call none _ replaced trivial trivial rfl
  have nothing : ¬ PopsElement [] [.pushBack (some 0), .set 0 (some 1), .destroy] := by
    simp [PopsElement]
  have once := vec_destroys_once_iff destroyed rfl
  exact ⟨_, rfl, (once.2 rfl).mpr nothing⟩

/-- The only element is popped, and never destroyed. -/
theorem vec_pop_keeps : ∃ v : Vec Nat,
    VecRun v [.pushBack (some 0), .popBack, .destroy] ∧ v.hasDtor = true ∧ v.destroyed = [] ∧
      storedBy [.pushBack (some 0), .popBack, .destroy] = [some 0] := by
  have empty : VecRun (⟨[], 0, 0, true, []⟩ : Vec Nat) [] :=
    .new none 0 true (by decide) rfl
  have pushed : VecRun (⟨[some 0], 1, 1, true, []⟩ : Vec Nat) ([] ++ [.pushBack (some 0)]) :=
    .call (some fun _ => none) _ empty trivial (by show _ < _; decide) rfl
  have popped : VecRun (⟨[some 0], 0, 1, true, []⟩ : Vec Nat) ([.pushBack (some 0)] ++ [.popBack]) :=
    .call none _ pushed trivial trivial rfl
  have destroyed : VecRun (⟨[], 0, 0, true, []⟩ : Vec Nat)
      ([.pushBack (some 0), .popBack] ++ [.destroy]) :=
    .call none _ popped trivial trivial rfl
  exact ⟨_, destroyed, rfl, rfl, rfl⟩

end Runs

end PennOs.Util
