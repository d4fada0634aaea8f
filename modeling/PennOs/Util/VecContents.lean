import PennOs.Util.Vec

set_option autoImplicit false

/- A vector of `Vec.c` holds a list within its storage. -/
namespace PennOs.Util

open DynArray (Answer Stop sizeT pointerSize inside Returns Represents Becomes)

variable {α : Type} {v v' : Vec α} {xs : List (Option α)} {answer : Answer (Option α)}
  {index minCapacity newCapacity : Nat} {newEle : Option α} {call : VecCall α} {calls : List (VecCall α)}

section Sizes

theorem capacity_lt (represents : v.Represents xs) : v.capacity < 2 ^ 61 := by
  have fits := represents.fits
  unfold pointerSize at fits
  omega

theorem sizeT_small {n : Nat} (small : n < 2 ^ 64) : sizeT n = n := Nat.mod_eq_of_lt small

theorem pred_pos {n : Nat} (some_ : 0 < n) (small : n < 2 ^ 64) : Vec.pred n = n - 1 := by
  unfold Vec.pred sizeT Vec.sizeTMax
  omega

theorem le_pred_succ {n : Nat} (small : n < 2 ^ 64) : n ≤ Vec.pred n + 1 := by
  by_cases first : n = 0
  · rw [first]
    exact Nat.zero_le _
  · rw [pred_pos (by omega) small]
    omega

theorem doubleUntil_reaches {min turns c : Nat} (reaches : Vec.sizeTMax / 2 < c * 2 ^ turns) :
    min ≤ Vec.doubleUntil min turns c ∨ Vec.sizeTMax / 2 < Vec.doubleUntil min turns c := by
  induction turns generalizing c with
  | zero =>
      rw [Nat.pow_zero, Nat.mul_one] at reaches
      exact .inr reaches
  | succ turns ih =>
      unfold Vec.doubleUntil
      split
      · apply ih
        rw [Nat.mul_assoc, ← Nat.pow_succ']
        exact reaches
      · omega

/-- The loop of `vec_ensure_or_double_capacity` ends by its condition. -/
theorem doubleUntil_ends {min c : Nat} (some_ : 0 < c) :
    min ≤ Vec.doubleUntil min 64 c ∨ Vec.sizeTMax / 2 < Vec.doubleUntil min 64 c := by
  apply doubleUntil_reaches
  have more := Nat.mul_le_mul_right (2 ^ 64) some_
  have most : Vec.sizeTMax / 2 < 2 ^ 64 := by decide
  omega

end Sizes

/- What `vec_ensure_or_double_capacity` asks for is enough. -/
section Growth

/-- The least capacity that it is called for. -/
def needed (minCapacity length : Nat) : Nat := if minCapacity = 0 then length + 1 else minCapacity

theorem grownCapacity_ge (minCapacity : Nat) (represents : v.Represents xs) :
    needed minCapacity v.length ≤ Vec.grownCapacity minCapacity v := by
  have bound := represents.bound
  have length := represents.length
  have least := capacity_lt represents
  have next : sizeT (v.length + 1) = v.length + 1 := sizeT_small (by omega)
  simp only [needed, Vec.grownCapacity, next]
  generalize (if minCapacity = 0 then v.length + 1 else minCapacity) = minNewCapacity
  generalize Vec.doubleUntil minNewCapacity 64 _ = newCapacity
  split <;> omega

theorem ensureOrDoubleCapacity_returns (represents : v.Represents xs)
    (small : Vec.grownCapacity minCapacity v * pointerSize < 2 ^ 64) :
    Returns answer (Vec.ensureOrDoubleCapacity answer minCapacity v) fun v' =>
      v.Becomes xs [] v' ∧ needed minCapacity v.length ≤ v'.capacity := by
  have enough := grownCapacity_ge minCapacity represents
  have bound := represents.bound
  have length := represents.length
  apply Returns.mono (DynArray.resize_returns represents fun _ => small)
  intro v' resized
  refine ⟨resized.1, ?_⟩
  rw [resized.2]
  split
  · omega
  · exact enough

theorem pushBack_returns (represents : v.Represents xs)
    (small : Vec.grownCapacity 0 v * pointerSize < 2 ^ 64) :
    Returns answer (v.pushBack answer newEle) (v.Becomes (xs ++ [newEle]) []) := by
  have length := represents.length
  apply Returns.bind (ensureOrDoubleCapacity_returns represents small)
  intro v' ensured
  have room : xs.length < v'.capacity := by
    have enough := ensured.2
    simp only [needed, ↓reduceIte] at enough
    omega
  exact (DynArray.append_returns ensured.1.represents room).mono fun _ later => ensured.1.trans later

theorem popBack_becomes (represents : v.Represents xs) : v.Becomes xs.dropLast [] v.popBack.2 := by
  unfold Vec.popBack
  by_cases empty : v.length = 0
  · have length := represents.length
    obtain rfl : xs = [] := List.eq_nil_of_length_eq_zero (by omega)
    rw [if_pos empty]
    exact .of_represents represents rfl rfl
  · rw [if_neg empty]
    exact .of_represents represents.dropLast rfl rfl

theorem get_ok (represents : v.Represents xs) (inRange : index < xs.length) :
    v.get index = .ok xs[index] := by
  have valid : ¬ v.length ≤ index := by
    rw [represents.length]
    omega
  exact (if_neg valid).trans (represents.get inRange)

theorem insert_returns (represents : v.Represents xs) (inRange : index ≤ xs.length)
    (small : Vec.grownCapacity 0 v * pointerSize < 2 ^ 64) :
    Returns answer (v.insert answer index newEle) (v.Becomes (xs.insertIdx index newEle) []) := by
  have length := represents.length
  have valid : ¬ v.length < index := by omega
  unfold Vec.insert
  simp only [valid, ↓reduceIte]
  by_cases atEnd : index = v.length
  · rw [if_pos atEnd, atEnd, length, List.insertIdx_length_self]
    exact pushBack_returns represents small
  rw [if_neg atEnd, length]
  apply Returns.bind (ensureOrDoubleCapacity_returns represents small)
  intro v' ensured
  have room : xs.length < v'.capacity := by
    have enough := ensured.2
    simp only [needed, ↓reduceIte] at enough
    omega
  exact (DynArray.insertAt_returns ensured.1.represents room inRange).mono fun _ later =>
    ensured.1.trans later

theorem erase_returns (represents : v.Represents xs) (inRange : index < xs.length) :
    Returns answer (v.erase index) (v.Becomes (xs.eraseIdx index) [xs[index]]) := by
  have length := represents.length
  have valid : ¬ v.length ≤ index := by omega
  unfold Vec.erase
  simp only [valid, ↓reduceIte]
  rw [length]
  apply Returns.bind (DynArray.destroyAt_returns represents inRange)
  intro v' destroyed
  exact (DynArray.eraseAt_returns destroyed.represents inRange).mono fun _ later => destroyed.trans later

/-- An element is replaced. -/
theorem setHelper_returns {forceSet : Bool} (represents : v.Represents xs) (inRange : index < xs.length) :
    Returns answer (v.setHelper answer index newEle forceSet)
      (v.Becomes (xs.set index newEle) [xs[index]]) := by
  have valid : ¬ v.length ≤ index := by
    rw [represents.length]
    omega
  unfold Vec.setHelper
  rw [if_neg valid]
  apply Returns.bind (DynArray.destroyAt_returns represents inRange)
  intro v' destroyed
  exact (DynArray.put_returns destroyed.represents inRange).mono fun _ later => destroyed.trans later

end Growth

section Cleaning

/-- The cells behind the elements are cleaned up to the index. -/
theorem initializeUnusedCapacity_ok (upToIndex : Nat) (represents : v.Represents xs)
    (some_ : 0 < v.capacity) : ∃ data, Vec.initializeUnusedCapacity upToIndex v =
      .ok { v with cells := data } ∧ data.length = v.capacity ∧
        xs ++ List.replicate (min (upToIndex + 1) v.capacity - xs.length) none <+: data := by
  have least := capacity_lt represents
  have bound := represents.bound
  have last : Vec.pred v.capacity = v.capacity - 1 := pred_pos some_ (by omega)
  have count : (if upToIndex < v.capacity - 1 then upToIndex else v.capacity - 1) + 1 - xs.length =
      min (upToIndex + 1) v.capacity - xs.length := by
    split <;> omega
  have fits : xs.length + (min (upToIndex + 1) v.capacity - xs.length) ≤ v.cells.length := by
    rw [represents.block]
    omega
  obtain ⟨data, filled, length, held⟩ := Cells.held_fill (a := none) represents.held fits
  refine ⟨data, ?_, length.trans represents.block, held⟩
  unfold Vec.initializeUnusedCapacity
  simp only [last, represents.length, count, filled]
  rfl

/-- Where there is no storage, the loop writes through the null pointer. -/
theorem initializeUnusedCapacity_outside {upToIndex : Nat} (represents : v.Represents xs)
    (none_ : v.capacity = 0) (reaches : Vec.pred 0 ≤ upToIndex) :
    Vec.initializeUnusedCapacity upToIndex v = .error .outside := by
  have bound := represents.bound
  have block := represents.block
  have length : v.length = 0 := by
    rw [represents.length]
    omega
  have empty : v.cells = [] := List.eq_nil_of_length_eq_zero (by omega)
  have last : ¬ upToIndex < Vec.pred 0 := by omega
  unfold Vec.initializeUnusedCapacity
  rw [none_, if_neg last, length, empty]
  rfl

theorem setHelper_force (represents : v.Represents xs) (past : xs.length ≤ index)
    (small : Vec.grownCapacity (index + 1) v * pointerSize < 2 ^ 64) :
    Returns answer (v.setHelper answer index newEle true)
      (v.Becomes (xs ++ List.replicate (index - xs.length) none ++ [newEle]) []) := by
  have beyond : v.length ≤ index := by
    rw [represents.length]
    exact past
  have asked := grownCapacity_ge (index + 1) represents
  simp only [needed, Nat.succ_ne_zero, ↓reduceIte] at asked
  have least : index + 1 < 2 ^ 61 := by
    unfold pointerSize at small
    omega
  unfold Vec.setHelper
  rw [if_pos beyond, if_pos rfl, sizeT_small (by omega)]
  apply Returns.bind (ensureOrDoubleCapacity_returns represents small)
  intro v' ensured
  have becomes := ensured.1
  have room : index + 1 ≤ v'.capacity := by
    have enough := ensured.2
    simp only [needed, Nat.succ_ne_zero, ↓reduceIte] at enough
    exact enough
  obtain ⟨data, cleaned, length, held⟩ := initializeUnusedCapacity_ok (Vec.pred index)
    becomes.represents (by omega)
  have reaches : index - xs.length ≤ min (Vec.pred index + 1) v'.capacity - xs.length := by
    have last := le_pred_succ (show index < 2 ^ 64 by omega)
    revert last
    generalize Vec.pred index = last
    omega
  have padded : DynArray.Represents { v' with cells := data, length := index }
      (xs ++ List.replicate (index - xs.length) none) := by
    refine ⟨?_, ?_, length, becomes.represents.fits⟩
    · rw [List.length_append, List.length_replicate]
      show index = _
      omega
    · apply List.IsPrefix.trans _ held
      apply (List.prefix_append_right_inj xs).mpr
      rw [← Nat.add_sub_of_le reaches, ← List.replicate_append_replicate]
      exact List.prefix_append _ _
  rw [cleaned]
  have appends := DynArray.put_eq_append { v' with cells := data } index newEle
  rw [sizeT_small (show index + 1 < 2 ^ 64 by omega)] at appends
  show Returns answer (DynArray.put index newEle { v' with cells := data, length := index + 1 }) _
  rw [appends]
  apply Returns.mono (DynArray.append_returns padded (by
    rw [List.length_append, List.length_replicate]
    show _ < v'.capacity
    omega))
  intro _ later
  exact ⟨later.represents, later.hasDtor.trans becomes.hasDtor, later.destroyed.trans (by
    rw [becomes.hasDtor, becomes.destroyed, List.append_assoc]
    cases v.hasDtor <;> rfl)⟩

theorem resizeAndClean_returns (represents : v.Represents xs)
    (small : newCapacity * pointerSize < 2 ^ 64) (cleans : ¬ (newCapacity = 0 ∧ v.capacity = 0)) :
    Returns answer (v.resizeAndClean answer newCapacity) (v.Becomes xs []) := by
  have bound := represents.bound
  have length := represents.length
  apply Returns.bind (DynArray.resize_returns represents fun _ => small)
  intro v' resized
  have some_ : 0 < v'.capacity := by
    rw [resized.2]
    split <;> omega
  have becomes := resized.1
  obtain ⟨data, cleaned, block, held⟩ := initializeUnusedCapacity_ok
    (Vec.pred newCapacity) becomes.represents some_
  rw [cleaned]
  refine ⟨⟨becomes.represents.length, (List.prefix_append _ _).trans held, block,
    becomes.represents.fits⟩, becomes.hasDtor, becomes.destroyed⟩

theorem resizeAndClean_outside (represents : v.Represents xs) (none_ : v.capacity = 0) :
    v.resizeAndClean answer 0 = .error .outside := by
  have same : Vec.resize answer 0 v = .ok v := by
    unfold Vec.resize DynArray.resize
    rw [if_pos (Nat.zero_le v.length)]
  unfold Vec.resizeAndClean
  rw [same, DynArray.ok_bind]
  exact initializeUnusedCapacity_outside represents none_ (Nat.le_refl _)

end Cleaning

section Runs

theorem new_represents {initialCapacity : Nat} {eleDtorFn : Bool}
    (small : initialCapacity * pointerSize < 2 ^ 64)
    (made : Vec.new answer initialCapacity eleDtorFn = .ok v) :
    v.Represents [] ∧ v.hasDtor = eleDtorFn ∧ v.destroyed = [] := by
  unfold Vec.new at made
  split at made
  · cases answer with
    | none => cases made
    | some fresh =>
        cases made
        refine ⟨⟨rfl, List.nil_prefix, ?_, small⟩, rfl, rfl⟩
        rw [List.length_map, List.length_range, sizeT_small small]
        exact Nat.mul_div_cancel initialCapacity (by decide)
  · next none_ =>
      cases made
      refine ⟨⟨rfl, List.nil_prefix, ?_, small⟩, rfl, rfl⟩
      show 0 = initialCapacity
      omega

theorem listAfter_concat :
    VecCall.listAfter (calls ++ [call]) = call.onList (VecCall.listAfter calls) := by
  simp only [VecCall.listAfter, List.foldl_append, List.foldl_cons, List.foldl_nil]

theorem getElem?_toList (inside_ : index < xs.length) : xs[index]?.toList = [xs[index]] := by
  rw [List.getElem?_eq_getElem inside_]
  rfl

/-- A call does on the vector what it does on the list, unless it cleans where there is no storage. -/
theorem VecCall.run_returns (represents : v.Represents xs) (inRange : call.InRange xs)
    (small : call.Small v) (cleans : ¬ call.CleansNothing v) :
    Returns answer (call.run answer v) (v.Becomes (call.onList xs) (call.destroys xs)) := by
  cases call with
  | pushBack newEle => exact pushBack_returns represents small
  | popBack => exact popBack_becomes represents
  | insert index newEle => exact insert_returns represents inRange small
  | erase index =>
      show Returns answer _ (v.Becomes _ xs[index]?.toList)
      rw [getElem?_toList inRange]
      exact erase_returns represents inRange
  | set index newEle =>
      show Returns answer _ (v.Becomes _ xs[index]?.toList)
      rw [getElem?_toList inRange]
      exact setHelper_returns represents inRange
  | setForce index newEle =>
      show Returns answer _ (v.Becomes (if index < xs.length then _ else _) xs[index]?.toList)
      by_cases inside_ : index < xs.length
      · rw [if_pos inside_, getElem?_toList inside_]
        exact setHelper_returns represents inside_
      · have past : xs.length ≤ index := Nat.le_of_not_lt inside_
        rw [if_neg inside_, List.getElem?_eq_none past]
        exact setHelper_force represents past (small (represents.length ▸ past))
  | resize newCapacity =>
      exact (DynArray.resize_returns represents fun _ => small).mono fun _ resized => resized.1
  | resizeAndClean newCapacity => exact resizeAndClean_returns represents small cleans
  | clear => exact DynArray.clearFirst_returns represents fun _ => represents.length
  | destroy =>
      apply Returns.bind (DynArray.clearFirst_returns represents fun _ => represents.length)
      intro v' becomes
      exact Returns.pure ⟨becomes.represents.release rfl, becomes.hasDtor, becomes.destroyed⟩

/-- A call that cleans where there is no storage leaves the storage. -/
theorem VecCall.run_outside (represents : v.Represents xs) (cleans : call.CleansNothing v) :
    call.run answer v = .error .outside := by
  cases call with
  | resizeAndClean newCapacity =>
      obtain ⟨rfl, none_⟩ := cleans
      exact resizeAndClean_outside represents none_
  | _ => exact cleans.elim

theorem VecCall.run_becomes (represents : v.Represents xs) (inRange : call.InRange xs)
    (small : call.Small v) (ran : call.run answer v = .ok v') :
    v.Becomes (call.onList xs) (call.destroys xs) v' := by
  by_cases cleans : call.CleansNothing v
  · rw [VecCall.run_outside represents cleans] at ran
    cases ran
  · exact (VecCall.run_returns represents inRange small cleans).of_ok ran

theorem VecRun.represents (run : VecRun v calls) : v.Represents (VecCall.listAfter calls) := by
  induction run with
  | new answer initialCapacity eleDtorFn small made => exact (new_represents small made).1
  | call answer call before inRange small ran ih =>
      rw [listAfter_concat]
      exact (VecCall.run_becomes ih inRange small ran).represents

/-- After calls whose indices make no panic and whose sizes fit, a vector holds what the calls make of a
list, within its storage; and the next call keeps to that, unless it is to clean a vector that has no
storage for no capacity. -/
theorem vec_refines_list_iff (run : VecRun v calls) :
    v.length ≤ v.capacity ∧ v.cells.length = v.capacity ∧ v.contents = VecCall.listAfter calls ∧
      ∀ answer (call : VecCall α), call.InRange (VecCall.listAfter calls) → call.Small v →
        (Returns answer (call.run answer v) (fun v' => v'.length ≤ v'.capacity ∧
          v'.cells.length = v'.capacity ∧ v'.contents = call.onList (VecCall.listAfter calls)) ↔
            ¬ call.CleansNothing v) := by
  have within : ∀ {w : Vec α} {ys : List (Option α)}, w.Represents ys →
      w.length ≤ w.capacity ∧ w.cells.length = w.capacity ∧ w.contents = ys := by
    intro w ys represents
    exact ⟨represents.length ▸ represents.bound, represents.block, represents.contents⟩
  have represents := run.represents
  have now := within represents
  refine ⟨now.1, now.2.1, now.2.2, fun answer call inRange small => ⟨fun returns cleans => ?_,
    fun cleans => ?_⟩⟩
  · rw [VecCall.run_outside represents cleans] at returns
    exact returns
  · exact (VecCall.run_returns represents inRange small cleans).mono fun _ later =>
      within later.represents

theorem vec_refines_list_iff_forced : ∃ v : Vec Nat, v.contents = [none, none, some 7] ∧
    ∀ answer, Returns answer (VecCall.run answer v (.insert 1 (some 3))) fun v' =>
      v'.contents = [none, some 3, none, some 7] := by
  have empty : VecRun (⟨[], 0, 0, false, []⟩ : Vec Nat) [] :=
    .new none 0 false (by decide) rfl
  have forced : VecRun (⟨[none, none, some 7, none], 3, 4, false, []⟩ : Vec Nat)
      ([] ++ [.setForce 2 (some 7)]) :=
    .call (some fun _ => none) (.setForce 2 (some 7)) empty trivial (fun _ => by decide) rfl
  have holds := vec_refines_list_iff forced
  have inRange : 1 ≤ [none, none, some 7].length := by decide
  have small : Vec.grownCapacity 0 (⟨[none, none, some 7, none], 3, 4, false, []⟩ : Vec Nat) *
      pointerSize < 2 ^ 64 := by decide
  refine ⟨_, holds.2.2.1, fun answer => ?_⟩
  have next := holds.2.2.2 answer (.insert 1 (some 3)) inRange small
  exact (next.mpr id).mono fun _ later => later.2.2

/-- `vec_resize_and_clean(&v, 0)` on a vector of `vec_new(0, ...)`. -/
theorem vec_clean_outside : ∃ v : Vec Nat, VecRun v [] ∧
    (VecCall.resizeAndClean 0).InRange (VecCall.listAfter ([] : List (VecCall Nat))) ∧
    (VecCall.resizeAndClean 0).Small v ∧
    ∀ answer, VecCall.run answer v (.resizeAndClean 0) = .error .outside := by
  have empty : VecRun (⟨[], 0, 0, false, []⟩ : Vec Nat) [] :=
    .new none 0 false (by decide) rfl
  have small : (VecCall.resizeAndClean 0).Small (⟨[], 0, 0, false, []⟩ : Vec Nat) := by
    show 0 * pointerSize < 2 ^ 64
    decide
  have cleans : (VecCall.resizeAndClean 0).CleansNothing (⟨[], 0, 0, false, []⟩ : Vec Nat) := ⟨rfl, rfl⟩
  exact ⟨_, empty, trivial, small, fun answer => VecCall.run_outside empty.represents cleans⟩

end Runs

end PennOs.Util
