import Mathlib.Data.List.Count
import Mathlib.Data.List.Rotate
import Mathlib.Logic.Function.Basic
import Mathlib.Tactic.Ring

set_option autoImplicit false

/- Queues served in turn: each slot serves the first of one queue and moves it to the end. -/
namespace RoundRobin

variable {ι α : Type} [DecidableEq ι] {queues : ι → List α} {slot i : ι} {x y : α}

def serve (queues : ι → List α) (slot : ι) : ι → List α :=
  Function.update queues slot ((queues slot).rotate 1)

/-- Who is served by a list of slots. -/
def schedule (queues : ι → List α) : List ι → List α
  | [] => []
  | slot :: rest => (queues slot).head?.toList ++ schedule (serve queues slot) rest

theorem serve_of_ne (apart : i ≠ slot) : serve queues slot i = queues i :=
  Function.update_of_ne apart _ _

theorem serve_self {rest : List α} (front : queues slot = x :: rest) :
    serve queues slot slot = rest ++ [x] := by
  rw [serve, Function.update_self, front]
  simp

theorem mem_serve : x ∈ serve queues slot i ↔ x ∈ queues i := by
  by_cases here : i = slot
  · subst here
    rw [serve, Function.update_self, List.mem_rotate]
  · rw [serve_of_ne here]

theorem length_serve : (serve queues slot i).length = (queues i).length := by
  by_cases here : i = slot
  · subst here
    rw [serve, Function.update_self, List.length_rotate]
  · rw [serve_of_ne here]

theorem serve_ne_nil (filled : queues i ≠ []) : serve queues slot i ≠ [] := by
  apply List.length_pos_iff.mp
  rw [length_serve]
  exact List.length_pos_iff.mpr filled

theorem serve_nodup (distinct : (queues i).Nodup) : (serve queues slot i).Nodup := by
  by_cases here : i = slot
  · subst here
    rw [serve, Function.update_self]
    exact List.nodup_rotate.mpr distinct
  · rw [serve_of_ne here]
    exact distinct

/-- Only members of the queues are served. -/
theorem schedule_mem {slots : List ι} (served : x ∈ schedule queues slots) :
    ∃ i, x ∈ queues i := by
  induction slots generalizing queues with
  | nil => cases served
  | cons slot rest ih =>
      rw [schedule, List.mem_append] at served
      rcases served with first | later
      · exact ⟨slot, List.mem_of_mem_head? (Option.mem_toList.mp first)⟩
      · obtain ⟨i, member⟩ := ih later
        exact ⟨i, (mem_serve).mp member⟩

section Shares

variable [DecidableEq α] (apart : ∀ i j x, x ∈ queues i → x ∈ queues j → i = j)
include apart

/-- A queue is served once in each of its slots. -/
theorem schedule_countP {slots : List ι} (filled : ∀ i, queues i ≠ []) :
    (schedule queues slots).countP (· ∈ queues i) = slots.count i := by
  induction slots generalizing queues with
  | nil => rfl
  | cons slot rest ih =>
      obtain ⟨first, others, front⟩ := List.exists_cons_of_ne_nil (filled slot)
      have apart' : ∀ i j x, x ∈ serve queues slot i → x ∈ serve queues slot j → i = j :=
        fun i j x here there => apart i j x ((mem_serve).mp here) ((mem_serve).mp there)
      have later := ih apart' (fun i => serve_ne_nil (filled i))
      simp only [mem_serve] at later
      have member : first ∈ queues slot := front ▸ List.mem_cons_self
      rw [schedule, List.countP_append, later, List.count_cons, front, List.head?_cons,
        Option.toList_some, List.countP_singleton, Nat.add_comm]
      by_cases same : slot = i
      · subst same
        simp [member]
      · have elsewhere : first ∉ queues i := fun here => same (apart slot i first member here)
        simp [same, elsewhere]

/-- The turns of one member, counted from its place in the queue. -/
theorem schedule_count {slots : List ι} (distinct : (queues i).Nodup) (member : x ∈ queues i) :
    (schedule queues slots).count x =
      (slots.count i + ((queues i).length - 1 - (queues i).idxOf x)) / (queues i).length := by
  induction slots generalizing queues with
  | nil =>
      have within := List.idxOf_lt_length_of_mem member
      rw [schedule, List.count_nil, List.count_nil, Nat.div_eq_of_lt]
      omega
  | cons slot rest ih =>
      have apart' : ∀ i j x, x ∈ serve queues slot i → x ∈ serve queues slot j → i = j :=
        fun i j x here there => apart i j x ((mem_serve).mp here) ((mem_serve).mp there)
      have later := ih apart' (serve_nodup distinct) ((mem_serve).mpr member)
      rw [length_serve] at later
      rw [schedule, List.count_append, later, List.count_cons]
      by_cases same : slot = i
      swap
      · have elsewhere : x ∉ (queues slot).head?.toList := fun first =>
          same (apart slot i x (List.mem_of_mem_head? (Option.mem_toList.mp first)) member)
        rw [List.count_eq_zero_of_not_mem elsewhere, serve_of_ne (Ne.symm same)]
        simp [same]
      subst same
      obtain ⟨first, others, front⟩ := List.exists_cons_of_ne_nil (List.ne_nil_of_mem member)
      rw [serve_self front, front]
      rw [front] at member distinct
      have fresh := (List.nodup_cons.mp distinct).1
      simp only [List.head?_cons, Option.toList_some, List.length_cons, beq_self_eq_true,
        ↓reduceIte]
      by_cases here : x = first
      · subst here
        rw [List.idxOf_append_of_notMem fresh, List.idxOf_cons_self, List.idxOf_cons_self,
          List.count_singleton_self]
        have cycle : rest.count slot + 1 + (others.length + 1 - 1 - 0) =
            rest.count slot + (others.length + 1 - 1 - (others.length + 0)) +
              (others.length + 1) := by
          omega
        rw [cycle, Nat.add_div_right _ (Nat.succ_pos _), Nat.add_comm]
      · have behind : x ∈ others := (List.mem_cons.mp member).resolve_left here
        have within := List.idxOf_lt_length_of_mem behind
        rw [List.idxOf_append_of_mem behind, List.idxOf_cons_ne _ (Ne.symm here),
          List.count_eq_zero_of_not_mem (by simpa using here), Nat.zero_add]
        congr 1
        omega

/-- Two members of one queue have equal shares up to one turn. -/
theorem schedule_fair {slots : List ι} (distinct : (queues i).Nodup) (first : x ∈ queues i)
    (second : y ∈ queues i) :
    (schedule queues slots).count x ≤ (schedule queues slots).count y + 1 := by
  rw [schedule_count apart distinct first, schedule_count apart distinct second]
  have positive : 0 < (queues i).length := List.length_pos_of_mem first
  have bound : slots.count i + ((queues i).length - 1 - (queues i).idxOf x) ≤
      slots.count i + ((queues i).length - 1 - (queues i).idxOf y) + (queues i).length := by
    omega
  calc _ ≤ (slots.count i + ((queues i).length - 1 - (queues i).idxOf y) +
          (queues i).length) / (queues i).length := Nat.div_le_div_right bound
    _ = _ := Nat.add_div_right _ positive

end Shares

end RoundRobin
