import PennOs.Kernel.PcbVec
import PennOs.Kernel.QueueFrames

set_option autoImplicit false

/- A vector of `pcb_vec.c` holds a list of PCBs. -/
namespace PennOs.Kernel

open DynArray (Answer Stop sizeT pointerSize inside Returns Represents Becomes)

variable {v v' : PcbVec} {xs : List PcbRef} {answer : Answer PcbRef} {index : Nat} {newEle target : PcbRef}
  {call : PcbVecCall}

section Ints

theorem intOfSize_small {n : Nat} (small : n < 2 ^ 31) : intOfSize n = n := by
  apply Int.bmod_eq_of_le
  · omega
  · omega

theorem intOfSize_lt (n : Nat) : intOfSize n < 2 ^ 31 := by
  have bound := Int.bmod_lt (x := n) (m := 2 ^ 32) (by decide)
  exact bound

theorem sizeOfInt_ofNat {n : Nat} (small : n < 2 ^ 64) : sizeOfInt n = n := by
  unfold sizeOfInt
  omega

/-- The `int` of the loop of `pcb_vec_erase` is the last index. -/
theorem sizeOfInt_last {n : Nat} (some_ : 0 < n) (small : n ≤ 2 ^ 31) :
    sizeOfInt (intOfSize (n - 1)) = n - 1 := by
  rw [intOfSize_small (by omega), sizeOfInt_ofNat (by omega)]

/-- The `int` of the loop of `pcb_vec_insert` counts all elements. -/
theorem insertTop_small {n : Nat} (small : n ≤ 2 ^ 31) :
    (intOfSize (sizeT (n + 2 ^ 64 - 1)) + 1).toNat = n := by
  cases n with
  | zero => rfl
  | succ n =>
      have wraps : sizeT (n + 1 + 2 ^ 64 - 1) = n := by
        rw [sizeT]
        omega
      rw [wraps, intOfSize_small (by omega)]
      omega

/-- With more elements the `int` stays below the index at the end. -/
theorem insertTop_counts {n : Nat} (counted : index = n ∨ n < 2 ^ 31) :
    (intOfSize (sizeT (n + 2 ^ 64 - 1)) + 1).toNat = n ∨
      index = n ∧ (intOfSize (sizeT (n + 2 ^ 64 - 1)) + 1).toNat ≤ n := by
  by_cases small : n ≤ 2 ^ 31
  · exact .inl (insertTop_small small)
  · have bound := intOfSize_lt (sizeT (n + 2 ^ 64 - 1))
    right
    omega

/-- The first turn stays inside of the block. -/
theorem insertTop_inside {n : Nat} (counted : index = n ∨ n < 2 ^ 31) (fits : n < 2 ^ 63) :
    ¬ (0 ≤ intOfSize (sizeT (n + 2 ^ 64 - 1)) ∧ index ≤ sizeOfInt (intOfSize (sizeT (n + 2 ^ 64 - 1))) ∧
      PcbVec.addInt (intOfSize (sizeT (n + 2 ^ 64 - 1))) 1 < 0) := by
  rintro ⟨positive, low, wraps⟩
  have bound := intOfSize_lt (sizeT (n + 2 ^ 64 - 1))
  have size : sizeOfInt
    (intOfSize (sizeT (n + 2 ^ 64 - 1))) = (intOfSize (sizeT (n + 2 ^ 64 - 1))).toNat := by
    unfold sizeOfInt
    omega
  have below : intOfSize (sizeT (n + 2 ^ 64 - 1)) < 2 ^ 31 - 1 := by
    by_contra top
    have last : intOfSize (sizeT (n + 2 ^ 64 - 1)) = 2 ^ 31 - 1 := by omega
    rw [size, last] at low
    -- an index up to the last `int` is not behind that many elements
    have many : n < 2 ^ 31 := by omega
    cases n with
    | zero => exact absurd last (by decide)
    | succ n =>
        have same : sizeT (n + 1 + 2 ^ 64 - 1) = n := by
          rw [sizeT]
          omega
        rw [same, intOfSize_small (by omega)] at last
        omega
  have exact_ : PcbVec.addInt (intOfSize (sizeT (n + 2 ^ 64 - 1))) 1 =
    intOfSize (sizeT (n + 2 ^ 64 - 1)) + 1 := by
    apply Int.bmod_eq_of_le
    · omega
    · omega
  omega

end Ints

namespace PcbVec

theorem new_represents {initialCapacity : Nat} {hasDtor : Bool}
    (made : new answer initialCapacity hasDtor = .ok v) : v.Represents [] := by
  unfold new at made
  split at made
  · cases made
    exact ⟨rfl, List.nil_prefix, rfl, by simp⟩
  · unfold calloc at made
    by_cases small : initialCapacity * pointerSize < 2 ^ 64
    · rw [if_pos small] at made
      cases answer with
      | none => cases made
      | some fresh =>
          cases made
          exact ⟨rfl, List.nil_prefix, List.length_replicate, small⟩
    · rw [if_neg small] at made
      cases made

theorem adjustCapacity_returns (represents : v.Represents xs)
    (small : v.length = v.capacity → 2 * v.capacity * pointerSize < 2 ^ 64) :
    Returns answer (adjustCapacity answer v) fun v' => v.Becomes xs [] v' ∧ xs.length < v'.capacity := by
  have length := represents.length
  have bound := represents.bound
  unfold adjustCapacity
  by_cases none_ : v.capacity = 0
  · rw [if_pos none_]
    refine (DynArray.resize_returns represents fun _ => by decide).mono fun v' resized => ?_
    obtain ⟨becomes, capacity⟩ := resized
    refine ⟨becomes, ?_⟩
    rw [capacity, if_neg (by omega)]
    omega
  rw [if_neg none_]
  by_cases full : v.length = v.capacity
  · have bytes := small full
    have double : sizeT (2 * v.capacity) = 2 * v.capacity := by
      rw [sizeT, Nat.mod_eq_of_lt]
      unfold pointerSize at bytes
      omega
    rw [if_pos full, double]
    refine (DynArray.resize_returns represents fun _ => bytes).mono fun v' resized => ?_
    obtain ⟨becomes, capacity⟩ := resized
    refine ⟨becomes, ?_⟩
    rw [capacity, if_neg (by omega)]
    omega
  · rw [if_neg full]
    refine Returns.pure ⟨.of_represents represents rfl rfl, ?_⟩
    omega

theorem pushBack_returns (represents : v.Represents xs)
    (small : v.length = v.capacity → 2 * v.capacity * pointerSize < 2 ^ 64) :
    Returns answer (pushBack answer newEle v) (v.Becomes (xs ++ [newEle]) []) := by
  apply Returns.bind (adjustCapacity_returns represents small)
  intro v' adjusted
  obtain ⟨becomes, room⟩ := adjusted
  exact (DynArray.append_returns becomes.represents room).mono fun _ later => becomes.trans later

theorem popBack_returns (represents : v.Represents xs) :
    Returns answer (popBack v) fun result =>
      result.1 = xs.getLast?.join ∧ v.Becomes xs.dropLast [] result.2 := by
  have length := represents.length
  unfold popBack
  by_cases empty : v.length = 0
  · obtain rfl : xs = [] := List.eq_nil_of_length_eq_zero (by omega)
    simp only [empty, ↓reduceIte]
    exact Returns.pure ⟨rfl, .of_represents represents rfl rfl⟩
  have last : v.length - 1 < xs.length := by omega
  have cell : v.cells[v.length - 1]? = some xs[v.length - 1] := by
    rw [(Cells.held_iff.mp represents.held).2 _ last, List.getElem?_eq_getElem last]
  simp only [empty, ↓reduceIte]
  apply Returns.bind (Returns.of_inside cell rfl)
  rintro _ rfl
  apply Returns.bind (DynArray.put_returns represents last)
  intro v' becomes
  have same : v'.length = v.length := by
    rw [becomes.represents.length, List.length_set, length]
  refine Returns.pure ⟨?_, ?_⟩
  · rw [List.getLast?_eq_getElem?, ← length, List.getElem?_eq_getElem last]
    rfl
  · have dropped := becomes.represents.dropLast
    have short : (xs.set (v.length - 1) none).dropLast = xs.dropLast := by
      rw [List.dropLast_eq_take, List.dropLast_eq_take, List.length_set, List.take_set_of_le (by omega)]
    rw [short] at dropped
    exact ⟨dropped, becomes.hasDtor, becomes.destroyed⟩

theorem get_ok (represents : v.Represents xs) (inRange : index < xs.length) :
    get index v = .ok xs[index] := by
  have valid : ¬ v.length ≤ index := by
    rw [represents.length]
    omega
  exact (if_neg valid).trans (represents.get inRange)

theorem set_returns (represents : v.Represents xs) (inRange : index < xs.length) :
    Returns answer (set index newEle v) (v.Becomes (xs.set index newEle) [xs[index]]) := by
  have valid : ¬ v.length ≤ index := by
    rw [represents.length]
    omega
  unfold set
  simp only [valid, ↓reduceIte]
  apply Returns.bind (DynArray.destroyAt_returns represents inRange)
  intro v' becomes
  exact (DynArray.put_returns becomes.represents inRange).mono fun _ later => becomes.trans later

theorem insert_returns (represents : v.Represents xs) (inRange : index ≤ xs.length)
    (small : v.length = v.capacity → 2 * v.capacity * pointerSize < 2 ^ 64)
    (counted : index = v.length ∨ v.length < 2 ^ 31) :
    Returns answer (insert answer index newEle v) (v.Becomes (xs.insertIdx index newEle) []) := by
  have length := represents.length
  have valid : ¬ v.length < index := by omega
  rw [length] at counted
  have top := insertTop_counts counted
  unfold insert
  simp only [valid, ↓reduceIte]
  apply Returns.bind (adjustCapacity_returns represents small)
  intro v' adjusted
  have becomes := adjusted.1
  have room := adjusted.2
  have fits := becomes.represents.fits
  unfold pointerSize at fits
  rw [becomes.represents.length, if_neg (insertTop_inside counted (by omega))]
  revert top
  generalize (intOfSize (sizeT (xs.length + 2 ^ 64 - 1)) + 1).toNat = top
  intro counts
  apply Returns.mono _ fun _ later => becomes.trans later
  cases counts with
  | inl all =>
      rw [all]
      exact DynArray.insertAt_returns becomes.represents room inRange
  | inr atEnd =>
      -- the element goes to the end, where nothing has to move
      have stays : top ≤ index := by omega
      rw [atEnd.1, List.insertIdx_length_self] at *
      exact DynArray.insertAt_end becomes.represents room stays

theorem erase_returns {isDestroy : Bool} (represents : v.Represents xs) (inRange : index < xs.length)
    (counted : v.length ≤ 2 ^ 31) :
    Returns answer (erase index isDestroy v)
      (v.Becomes (xs.eraseIdx index) (if isDestroy then [xs[index]] else [])) := by
  have valid : ¬ v.length ≤ index := by
    rw [represents.length]
    omega
  have destroyed : Returns answer (if isDestroy then v.destroyAt index else pure v)
      (v.Becomes xs (if isDestroy then [xs[index]] else [])) := by
    cases isDestroy with
    | true => exact DynArray.destroyAt_returns represents inRange
    | false => exact Returns.pure (.of_represents represents rfl rfl)
  have steps : erase index isDestroy v = (if isDestroy then v.destroyAt index else pure v) >>=
      fun self => self.eraseAt (sizeOfInt (intOfSize (self.length - 1)) - index) index := by
    unfold erase
    simp only [valid, ↓reduceIte]
    cases isDestroy <;> rfl
  rw [steps]
  apply Returns.bind destroyed
  intro v' becomes
  have length' : v'.length = xs.length := becomes.represents.length
  rw [length', sizeOfInt_last (by omega) (represents.length ▸ counted)]
  apply Returns.mono (DynArray.eraseAt_returns becomes.represents inRange)
  intro _ later
  have both := becomes.trans later
  rw [List.append_nil] at both
  exact both

theorem clear_returns (represents : v.Represents xs) (counted : v.hasDtor = true → v.length < 2 ^ 31) :
    Returns answer (clear v) (v.Becomes [] xs) := by
  apply DynArray.clearFirst_returns represents
  intro dtor
  have small := counted dtor
  rw [intOfSize_small small, sizeOfInt_ofNat (by omega)]
  exact represents.length

theorem destroy_returns (represents : v.Represents xs)
    (counted : v.hasDtor = true → v.length < 2 ^ 31) :
    Returns answer (destroy v) (v.Becomes [] xs) := by
  apply Returns.bind (clear_returns represents counted)
  intro v' becomes
  exact Returns.pure ⟨becomes.represents.release rfl, becomes.hasDtor, becomes.destroyed⟩

end PcbVec

section Searches

theorem seek_ok {p : PcbRef → Bool} (represents : v.Represents xs) (counted : xs.length ≤ 2 ^ 31) :
    Cells.seek p (PcbVec.intTurns v.length) 0 v.cells = some (xs.findIdx? p) := by
  rw [PcbVec.intTurns, represents.length, Nat.min_eq_left counted]
  exact Cells.held_seek represents.held

/-- The index of the first PCB that is the target. -/
def firstIndex (target : PcbRef) (xs : List PcbRef) : Int :=
  match xs.idxOf? target with
  | some first => first
  | none => if xs.length = 0 then -1 else -2

theorem seekIndexByPcb_ok (represents : v.Represents xs) (counted : xs.length ≤ 2 ^ 31) :
    PcbVec.seekIndexByPcb target v = .ok (firstIndex target xs) := by
  unfold PcbVec.seekIndexByPcb firstIndex
  rw [seek_ok represents counted, represents.length]
  by_cases empty : xs.length = 0
  · obtain rfl := List.eq_nil_of_length_eq_zero empty
    rfl
  rw [if_neg empty, if_neg empty]
  show _ = Except.ok (match xs.findIdx? (· == target) with | some first => (first : Int) | none => -2)
  cases xs.findIdx? (· == target) <;> rfl

theorem removeByPcb_returns (represents : v.Represents xs) (counted : v.length ≤ 2 ^ 31) :
    Returns answer (PcbVec.removeByPcb target v) fun result =>
      result.1 = (if target ∈ xs then 0 else -1) ∧ v.Becomes (xs.erase target) [] result.2 := by
  have sought : PcbVec.seekIndexByPcb target v = .ok (firstIndex target xs) :=
    seekIndexByPcb_ok represents (represents.length ▸ counted)
  have erased := List.erase_eq_eraseIdx xs target
  unfold PcbVec.removeByPcb
  rw [sought]
  unfold firstIndex
  cases first : xs.idxOf? target with
  | none =>
      have absent : target ∉ xs := List.idxOf?_eq_none_iff.mp first
      rw [if_neg absent, List.erase_of_not_mem absent]
      by_cases empty : xs.length = 0
      · simp only [empty, ↓reduceIte]
        exact Returns.pure ⟨rfl, .of_represents represents rfl rfl⟩
      · simp only [empty, ↓reduceIte]
        exact Returns.pure ⟨rfl, .of_represents represents rfl rfl⟩
  | some index =>
      have present : target ∈ xs := by
        by_contra absent
        rw [List.idxOf?_eq_none_iff.mpr absent] at first
        cases first
      have inside := (List.findIdx?_eq_some_iff_getElem.mp first).1
      rw [first] at erased
      have nonnegative : ¬ (index : Int) < 0 := by omega
      rw [if_pos present, erased]
      show Returns answer (do
        if (index : Int) < 0 then return (-1, v)
        let self ← PcbVec.erase (index : Int).toNat false v
        return (0, self)) _
      rw [if_neg nonnegative]
      apply Returns.bind (PcbVec.erase_returns represents inside counted)
      intro v' becomes
      exact Returns.pure ⟨rfl, becomes⟩

/-- The first PCB that passes. -/
theorem seekBy_ok {passes : PcbRef → Bool} (represents : v.Represents xs)
    (counted : xs.length ≤ 2 ^ 31) : PcbVec.seekBy passes v = .ok (xs.find? passes).join := by
  unfold PcbVec.seekBy
  rw [seek_ok represents counted, represents.length, List.find?_eq_bind_findIdx?_getElem?]
  by_cases empty : xs.length = 0
  · obtain rfl := List.eq_nil_of_length_eq_zero empty
    rfl
  rw [if_neg empty]
  cases first : xs.findIdx? passes with
  | none => rfl
  | some index =>
      have inside := (List.findIdx?_eq_some_iff_getElem.mp first).1
      have cell := (Cells.held_iff.mp represents.held).2 index inside
      rw [List.getElem?_eq_getElem inside] at cell
      show DynArray.inside v.cells[index]? = Except.ok (xs[index]?).join
      rw [cell, List.getElem?_eq_getElem inside]
      rfl

end Searches

section Runs

/-- A call does on the vector what it does on the list. -/
theorem PcbVecCall.run_returns (represents : v.Represents xs) (inRange : call.InRange xs)
    (fits : call.Fits v) :
    Returns answer (call.run answer v) fun v' => v'.Represents (call.onList xs) := by
  cases call with
  | pushBack newEle => exact (PcbVec.pushBack_returns represents fits).represents
  | popBack => exact (PcbVec.popBack_returns represents).map fun _ later => later.2.represents
  | set index newEle => exact (PcbVec.set_returns represents inRange).represents
  | insert index newEle =>
      exact (PcbVec.insert_returns represents inRange fits.1 fits.2).represents
  | erase index isDestroy =>
      exact (PcbVec.erase_returns represents inRange fits).represents
  | removeByPcb target => exact (removeByPcb_returns represents fits).map fun _ later => later.2.represents
  | resize newCapacity =>
      exact (DynArray.resize_returns represents fits).mono fun _ later => later.1.represents
  | clear => exact (PcbVec.clear_returns represents fits).represents
  | destroy => exact (PcbVec.destroy_returns represents fits).represents

theorem PcbVecRun.represents (run : PcbVecRun (fun v call => call.Fits v) v xs) : v.Represents xs := by
  induction run with
  | new answer initialCapacity hasDtor made => exact PcbVec.new_represents made
  | call answer call before inRange fits ran ih => exact (PcbVecCall.run_returns ih inRange fits).of_ok ran

/-- A vector whose arrays have sizes that fit in `size_t` holds what the calls make of a list, within its
capacity. No call accesses a cell behind it, and the searches, as far as an `int` counts, find the first
match. -/
theorem pcbVec_refines_list (run : PcbVecRun (fun v call => call.Fits v) v xs) :
    v.length ≤ v.capacity ∧ v.cells.length = v.capacity ∧ v.contents = xs ∧
      (∀ answer call, PcbVecCall.InRange xs call → PcbVecCall.Fits v call →
        Returns answer (call.run answer v) fun v' => v'.contents = call.onList xs) ∧
      (xs.length ≤ 2 ^ 31 →
        (∀ target, PcbVec.seekIndexByPcb target v = .ok (firstIndex target xs)) ∧
        (∀ thrdPid targetPid, PcbVec.seekPcbByPid thrdPid targetPid v =
          .ok (xs.find? fun ref => thrdPid ref == targetPid).join) ∧
        ∀ thrdHandle thrd, PcbVec.seekPcbByThrd thrdHandle thrd v =
          .ok (xs.find? fun ref => thrdHandle ref == thrd).join) := by
  have represents := run.represents
  have bound := represents.bound
  rw [← represents.length] at bound
  refine ⟨bound, represents.block, represents.contents, fun answer call inRange fits => ?_,
    fun counted => ⟨fun target => seekIndexByPcb_ok represents counted, fun thrdPid targetPid => ?_,
      fun thrdHandle thrd => ?_⟩⟩
  · exact (PcbVecCall.run_returns represents inRange fits).mono fun _ later => later.contents
  · exact seekBy_ok represents counted
  · exact seekBy_ok represents counted

theorem pcbVec_refines_list_pair : ∃ v : PcbVec, v.contents = [some 1, some 0] ∧
    PcbVec.seekIndexByPcb (some 0) v = .ok 1 := by
  have empty : PcbVecRun (fun v call => call.Fits v) ⟨[none, none], 0, 2, false, []⟩ [] :=
    .new (some fun _ => none) 2 false rfl
  have one := PcbVecRun.call none (.pushBack (some 0)) empty trivial
    (by intro full; cases full) rfl
  have two := PcbVecRun.call none (.insert 0 (some 1)) one (Nat.zero_le _)
    ⟨(by intro full; cases full), .inr (by decide)⟩ rfl
  have both := pcbVec_refines_list two
  exact ⟨_, both.2.2.1, (both.2.2.2.2 (by decide)).1 (some 0)⟩

/-- A capacity whose bytes do not fit in `size_t` makes the block smaller, and loses the second element. -/
theorem pcbVec_resize_wraps : ∃ v xs, PcbVecRun (fun _ _ => True) v xs ∧ v.contents ≠ xs ∧
    v.capacity ≠ v.cells.length ∧ v.length = 2 ∧ PcbVec.get 1 v = .error .outside := by
  have empty : PcbVecRun (fun _ _ => True) ⟨[], 0, 0, false, []⟩ [] :=
    .new none 0 false rfl
  have one := PcbVecRun.call (some fun _ => none) (.pushBack (some 0)) empty trivial
    trivial rfl
  have two := PcbVecRun.call (some fun _ => none) (.pushBack (some 1)) one trivial
    trivial rfl
  have wrapped := PcbVecRun.call (some fun _ => none) (.resize (2 ^ 61 + 1)) two trivial
    trivial rfl
  exact ⟨_, _, wrapped, by decide, by decide, rfl, rfl⟩

end Runs

/- `all_unreaped_pcb_vector` holds the PCBs of the kernel's list. -/
section KernelLists

variable {k k' : KernelState} {ptr : PcbPtr} {pid : Int} {result : Option PcbPtr}

theorem pcbVecPushBack_returns (represents : v.Represents (k.allUnreapedPcbVector.map some))
    (fits : (PcbVecCall.pushBack (some ptr)).Fits v) (run : pcbVecPushBack ptr k = some ((), k')) :
    Returns answer (PcbVec.pushBack answer (some ptr) v) fun v' =>
      v'.Represents (k'.allUnreapedPcbVector.map some) := by
  cases run
  rw [List.map_append]
  exact (PcbVec.pushBack_returns represents fits).represents

theorem pcbVecRemoveByPcb_returns (represents : v.Represents (k.allUnreapedPcbVector.map some))
    (counted : v.length ≤ 2 ^ 31) (run : pcbVecRemoveByPcb ptr k = some ((), k')) :
    Returns answer (PcbVec.removeByPcb (some ptr) v) fun result =>
      result.2.Represents (k'.allUnreapedPcbVector.map some) := by
  cases run
  show Returns answer (PcbVec.removeByPcb (some ptr) v) fun result =>
    result.2.Represents ((k.allUnreapedPcbVector.erase ptr).map some)
  rw [List.map_erase fun _ _ => Option.some.inj]
  exact (removeByPcb_returns represents counted).mono fun _ later => later.2.represents

/-- `thrd_pid` of a PCB. -/
def KernelState.thrdPid (k : KernelState) (ref : PcbRef) : Int := ((ref.bind k.pcbs).map Pcb.pid).getD 0

theorem seekByPid_first {ptrs : List PcbPtr} (run : seekByPid pid ptrs k = some (result, k')) :
    ((ptrs.map some).find? fun ref => k.thrdPid ref == pid).join = result := by
  induction ptrs with
  | nil =>
      cases run
      rfl
  | cons ptr rest ih =>
      obtain ⟨pcb, k1, read, run⟩ := Prog.bind_inv run
      obtain ⟨exists_, rfl⟩ := deref_inv read
      have named : k.thrdPid (some ptr) = pcb.pid := by
        simp only [KernelState.thrdPid, Option.bind_some, exists_, Option.map_some, Option.getD_some]
      rw [List.map_cons, List.find?_cons, named]
      by_cases here : pcb.pid = pid
      · simp only [here, ↓reduceIte] at run
        cases run
        simp only [here, beq_self_eq_true, Option.join_some]
      · simp only [here, ↓reduceIte] at run
        have passes : (pcb.pid == pid) = false := beq_eq_false_iff_ne.mpr here
        simp only [passes]
        exact ih run

theorem pcbVecSeekPcbByPid_ok (represents : v.Represents (k.allUnreapedPcbVector.map some))
    (counted : k.allUnreapedPcbVector.length ≤ 2 ^ 31)
    (run : pcbVecSeekPcbByPid pid k = some (result, k')) :
    PcbVec.seekPcbByPid k.thrdPid pid v = .ok result := by
  rw [← seekByPid_first run]
  apply seekBy_ok represents
  rw [List.length_map]
  exact counted

end KernelLists

end PennOs.Kernel
