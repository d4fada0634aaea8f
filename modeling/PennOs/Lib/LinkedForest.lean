import PennOs.Lib.LinkedChain

set_option autoImplicit false

/- A family of chains through one successor map that share no node. -/
namespace LinkedChain

variable {ι α : Type}

/-- The chain from `start i` visits `nodes i`, and a node is on one chain at most. -/
structure Forest (next : α → Option α) (start : ι → Option α) (nodes : ι → List α) : Prop where
  links : ∀ i, Links next (start i) (nodes i)
  apart : ∀ i j node, node ∈ nodes i → node ∈ nodes j → i = j

namespace Forest

variable {next next' : α → Option α} {start : ι → Option α} {nodes : ι → List α}

theorem off_others (forest : Forest next start nodes) {i j : ι} {node : α}
    (member : node ∈ nodes i) (different : j ≠ i) : node ∉ nodes j :=
  fun other => different (forest.apart j i node other member)

/-- A map that agrees on every chain's nodes. -/
theorem congr (forest : Forest next start nodes)
    (same : ∀ i, ∀ node ∈ nodes i, next' node = next node) : Forest next' start nodes :=
  ⟨fun i => (forest.links i).congr (same i), forest.apart⟩

section Update

variable [DecidableEq ι]

/-- One chain is replaced; the map agrees on the others and the new nodes are off them. -/
theorem replace (forest : Forest next start nodes) {i : ι} {first : Option α} {list : List α}
    (links : Links next' first list)
    (same : ∀ j, j ≠ i → ∀ node ∈ nodes j, next' node = next node)
    (fresh : ∀ node ∈ list, ∀ j, j ≠ i → node ∉ nodes j) :
    Forest next' (Function.update start i first) (Function.update nodes i list) where
  links j := by
    by_cases here : j = i
    · subst here
      simpa only [Function.update_self] using links
    · simpa only [Function.update_of_ne here] using (forest.links j).congr (same j here)
  apart j k node inFirst inSecond := by
    by_cases firstHere : j = i <;> by_cases secondHere : k = i
    · exact firstHere.trans secondHere.symm
    · rw [firstHere, Function.update_self] at inFirst
      rw [Function.update_of_ne secondHere] at inSecond
      exact absurd inSecond (fresh node inFirst k secondHere)
    · rw [Function.update_of_ne firstHere] at inFirst
      rw [secondHere, Function.update_self] at inSecond
      exact absurd inFirst (fresh node inSecond j firstHere)
    · rw [Function.update_of_ne firstHere] at inFirst
      rw [Function.update_of_ne secondHere] at inSecond
      exact forest.apart j k node inFirst inSecond

/-- One chain is replaced by another from the same start. -/
theorem replace_tail (forest : Forest next start nodes) {i : ι} {list : List α}
    (links : Links next' (start i) list)
    (same : ∀ j, j ≠ i → ∀ node ∈ nodes j, next' node = next node)
    (fresh : ∀ node ∈ list, ∀ j, j ≠ i → node ∉ nodes j) :
    Forest next' start (Function.update nodes i list) := by
  have replaced := forest.replace links same fresh
  rwa [Function.update_eq_self] at replaced

/-- A chain's nodes are taken off it. -/
theorem clear (forest : Forest next start nodes) {i : ι}
    (same : ∀ node, node ∉ nodes i → next' node = next node) :
    Forest next' (Function.update start i none) (Function.update nodes i []) := by
  have nothing : Links next' none [] := rfl
  apply forest.replace nothing
  · intro j different node member
    exact same node (forest.off_others member (Ne.symm different))
  · simp

/-- A new chain of one node. -/
theorem plant (forest : Forest next start nodes) {i : ι} {new : α}
    (same : ∀ node, node ≠ new → next' node = next node) (ends : next' new = none)
    (fresh : ∀ j, new ∉ nodes j) :
    Forest next' (Function.update start i (some new)) (Function.update nodes i [new]) := by
  apply forest.replace
  · exact ⟨rfl, ends⟩
  · intro j _ node member
    exact same node fun here => fresh j (here ▸ member)
  · intro node member j _
    obtain rfl := List.mem_singleton.mp member
    exact fresh j

variable [DecidableEq α]

omit [DecidableEq ι] in
theorem frame (forest : Forest next start nodes) {node : α} {target : Option α}
    (outside : ∀ i, node ∉ nodes i) : Forest (Function.update next node target) start nodes :=
  ⟨fun i => (forest.links i).frame (outside i), forest.apart⟩

/-- A fresh node is linked after the last one of a chain. -/
theorem push (forest : Forest next start nodes) {i : ι} {front : List α} {last new : α}
    (here : nodes i = front ++ [last]) (fresh : ∀ j, new ∉ nodes j) (ends : next new = none) :
    Forest (Function.update next last (some new)) start
      (Function.update nodes i (nodes i ++ [new])) := by
  have links : Links (Function.update next last (some new)) (start i) (nodes i ++ [new]) := by
    rw [here, List.append_assoc]
    exact (here ▸ forest.links i).push (here ▸ fresh i) ends
  refine forest.replace_tail links
    (fun j different node member => ?_) fun node member j different => ?_
  · have apart : node ≠ last := by
      rintro rfl
      exact forest.off_others (i := i) (by simp [here]) different member
    exact Function.update_of_ne apart _ _
  · rcases List.mem_append.mp member with old | new'
    · exact forest.off_others old different
    · obtain rfl := List.mem_singleton.mp new'
      exact fresh j

/-- The first node of a chain is taken off it. -/
theorem pop (forest : Forest next start nodes) {i : ι} {first : α} {rest : List α}
    (here : nodes i = first :: rest) :
    Forest (Function.update next first none) (Function.update start i (next first))
      (Function.update nodes i rest) := by
  have whole : Links next (start i) (first :: rest) := here ▸ forest.links i
  have absent : first ∉ rest := (List.nodup_cons.mp whole.nodup).1
  apply forest.replace (whole.2.frame absent)
  · intro j different node member
    have apart : node ≠ first := by
      rintro rfl
      exact forest.off_others (i := i) (by simp [here]) different member
    exact Function.update_of_ne apart _ _
  · intro node member j different
    exact forest.off_others (i := i) (by simp [here, member]) different

/-- A node after the first one is taken off its chain. -/
theorem unlink (forest : Forest next start nodes) {i : ι} {front back : List α}
    {before removed : α} (here : nodes i = front ++ before :: removed :: back) :
    Forest (Function.update (Function.update next before (next removed)) removed none) start
      (Function.update nodes i (front ++ before :: back)) := by
  have whole : Links next (start i) (front ++ before :: removed :: back) := here ▸ forest.links i
  have distinct := whole.nodup
  have absent : removed ∉ front ++ before :: back := by
    simp only [List.nodup_append, List.nodup_cons, List.mem_cons, List.mem_append] at distinct ⊢
    grind
  have others : ∀ j, j ≠ i → ∀ node ∈ nodes j,
      Function.update (Function.update next before (next removed)) removed none node
        = next node := by
    intro j different node member
    have apart : node ≠ removed := by
      rintro rfl
      exact forest.off_others (i := i) (by simp [here]) different member
    have apart' : node ≠ before := by
      rintro rfl
      exact forest.off_others (i := i) (by simp [here]) different member
    rw [Function.update_of_ne apart, Function.update_of_ne apart']
  refine forest.replace_tail (whole.unlink.frame absent) others
    fun node member j different => ?_
  have old : node ∈ nodes i := by
    rw [here]
    simp only [List.mem_append, List.mem_cons] at member ⊢
    tauto
  exact forest.off_others old different

end Update

end Forest

end LinkedChain
